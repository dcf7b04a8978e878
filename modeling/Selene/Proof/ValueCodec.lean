import Selene.Proof.ScalarCodec

/-!
# One encoding for every value

`wire` and `cost` say how a value looks on the wire and what the budget pays for it. The encoder
writes that (`writes_value`), and the decoder, which is a machine with a stack, reads exactly that
(`reads_value`): a value it returns has been read off its own encoding, whatever the nesting.
-/

namespace Selene.Logical

open Octets Metered Core List Option Encoder Decoder

variable {F : Foreign} {L : Limits} {depth : ℕ}

variable {fs : List (DbString × Value F)} {vs : List (Value F)}

mutual

/-- What stands on the wire for a value. -/
def wire : Value F → Bytes
  | .list vs => 11 :: (leBytes 4 vs.length ++ wireList vs)
  | .record fs => 12 :: (leBytes 4 fs.length ++ wireFields fs)
  | v => tag v :: payload v

def wireList : List (Value F) → Bytes
  | [] => []
  | v :: vs => wire v ++ wireList vs

def wireFields : List (DbString × Value F) → Bytes
  | [] => []
  | (k, v) :: fs => textWire k.val ++ (wire v ++ wireFields fs)

end

mutual

/-- What a value costs. -/
def cost : Value F → Charge
  | .list vs => ⟨1, 128, 0⟩ + (countCost 64 vs.length + costList vs)
  | .record fs => ⟨1, 128, 0⟩ + (countCost 64 fs.length + costFields fs)
  | v => ⟨1, 128, 0⟩ + payloadCost v

def costList : List (Value F) → Charge
  | [] => 0
  | v :: vs => cost v + costList vs

def costFields : List (DbString × Value F) → Charge
  | [] => 0
  | (k, v) :: fs => textCost k.val + (cost v + costFields fs)

end

/-- The names are new, and no two of them are equal. -/
def Fresh : List DbString → List (DbString × Value F) → Prop
  | _, [] => True
  | names, (k, _) :: fs => k ∉ names ∧ Fresh (k :: names) fs

mutual

/-- No member lies too deep, no record repeats a name, and the leaves satisfy `P`. -/
def Nested (L : Limits) (P : Value F → Prop) : ℕ → Value F → Prop
  | d, .list vs => d ≤ L.depth ∧ NestedList L P (d + 1) vs
  | d, .record fs => d ≤ L.depth ∧ Fresh [] fs ∧ NestedFields L P (d + 1) fs
  | d, v => d ≤ L.depth ∧ P v

def NestedList (L : Limits) (P : Value F → Prop) : ℕ → List (Value F) → Prop
  | _, [] => True
  | d, v :: vs => Nested L P d v ∧ NestedList L P d vs

def NestedFields (L : Limits) (P : Value F → Prop) : ℕ → List (DbString × Value F) → Prop
  | _, [] => True
  | d, (_, v) :: fs => Nested L P d v ∧ NestedFields L P d fs

end

variable {v : Value F}

theorem wire_leaf (h : v.Leaf) : wire v = tag v :: payload v := by
  cases v <;> first | rfl | exact h.elim

theorem cost_leaf (h : v.Leaf) : cost v = ⟨1, 128, 0⟩ + payloadCost v := by
  cases v <;> first | rfl | exact h.elim

variable {P : Value F → Prop} {d : ℕ}

theorem nested_leaf (h : v.Leaf) :
    Nested L P d v ↔ d ≤ L.depth ∧ P v := by
  cases v <;> first | exact Iff.rfl | exact h.elim

theorem leaf_iff : v.Leaf ↔ tag v ≠ 11 ∧ tag v ≠ 12 := by
  cases v <;> simp [tag, Value.Leaf]

theorem list_of_tag (h : tag v = 11) : ∃ vs, v = .list vs := by
  cases v <;> first | exact ⟨_, rfl⟩ | cases h

theorem record_of_tag (h : tag v = 12) : ∃ fs, v = .record fs := by
  cases v <;> first | exact ⟨_, rfl⟩ | cases h

theorem nestedList_iff :
    NestedList L P d vs ↔ ∀ v ∈ vs, Nested L P d v := by
  induction vs with
  | nil => simp [NestedList]
  | cons v vs ih => simp [NestedList, ih]

theorem nestedFields_iff :
    NestedFields L P d fs ↔ ∀ f ∈ fs, Nested L P d f.2 := by
  induction fs with
  | nil => simp [NestedFields]
  | cons f fs ih => simp [NestedFields, ih]

/-! ## The writer -/

theorem value_leaf {d : ℕ} {v : Value F} (h : v.Leaf) :
    value L v d = enter L d >>= fun _ => scalar L v := by
  cases v <;> first | rfl | exact h.elim

theorem writes_enter (d : ℕ) : Writes (meter L) (enter L d) (d ≤ L.depth) [] ⟨1, 128, 0⟩ := by
  refine (Writes.check.bind (writes_charge 1 128)).congr ?_ rfl (zero_add _)
  rw [and_true]
  split
  · exact iff_of_false (by simp) (by omega)
  · exact iff_of_true rfl (by omega)

theorem writes_values {d : ℕ}
    (h : ∀ v ∈ vs, ∀ d, Writes (meter L) (value L v d) (Nested L Plain d v) (wire v) (cost v)) :
    Writes (meter L) (values L vs d) (NestedList L Plain d vs) (wireList vs) (costList vs) := by
  induction vs with
  | nil => exact Writes.pure
  | cons v vs ih =>
    have hv := h v mem_cons_self d
    exact hv.bind (ih fun x hx => h x (mem_cons_of_mem _ hx))

theorem writes_fields (hL : L.Valid) {d : ℕ} (names : List DbString) (h : ∀ f ∈ fs, ∀ d,
      Writes (meter L) (value L f.2 d) (Nested L Plain d f.2) (wire f.2) (cost f.2)) :
    Writes (meter L) (fields L names fs d) (Fresh names fs ∧ NestedFields L Plain d fs)
      (wireFields fs) (costFields fs) := by
  induction fs generalizing names with
  | nil => exact Writes.pure.congr (by simp [Fresh, NestedFields]) rfl rfl
  | cons f fs ih =>
    obtain ⟨k, v⟩ := f
    have hv := h (k, v) mem_cons_self d
    have hfs := ih (k :: names) fun x hx => h x (mem_cons_of_mem _ hx)
    rw [fields]
    split
    · rename_i hk
      exact writes_fail.congr (iff_of_false id fun h' => h'.1.1 hk) rfl rfl
    · rename_i hk
      refine ((writes_text hL k.val).bind (hv.bind hfs)).congr ?_ rfl rfl
      simp only [Fresh, NestedFields]
      tauto

theorem writes_value (hL : L.Valid) (v : Value F) : ∀ d,
    Writes (meter L) (value L v d) (Nested L Plain d v) (wire v) (cost v) := by
  induction v using Value.nested_induction with
  | hlist vs ih =>
    intro d
    have hbody := (writes_countFor hL 64 vs.length).bind (writes_values (d := d + 1) ih)
    refine ((writes_enter d).bind (writes_tagged (n := 11) hbody)).congr ?_ rfl rfl
    rw [true_and]
    exact Iff.rfl
  | hrecord fs ih =>
    intro d
    have hbody := (writes_countFor hL 64 fs.length).bind
      (writes_fields hL (d := d + 1) [] ih)
    refine ((writes_enter d).bind (writes_tagged (n := 12) hbody)).congr ?_ rfl rfl
    rw [true_and]
    exact Iff.rfl
  | hleaf v hv =>
    intro d
    rw [value_leaf hv]
    exact ((writes_enter d).bind (writes_scalar hL v)).congr (nested_leaf hv).symm (wire_leaf hv).symm
      (cost_leaf hv).symm

/-! ## The reader -/

/-- A leaf that is read: it could be written, and reads back as itself. -/
def Sound (v : Value F) : Prop := Plain v ∧ PlainReadable v

/-- A value without the test of its own depth. -/
def Inner (L : Limits) (P : Value F → Prop) (d : ℕ) : Value F → Prop
  | .list vs => NestedList L P (d + 1) vs
  | .record fs => Fresh [] fs ∧ NestedFields L P (d + 1) fs
  | v => P v

theorem nested_iff :
    Nested L P d v ↔ d ≤ L.depth ∧ Inner L P d v := by
  cases v <;> exact Iff.rfl

theorem inner_leaf (h : v.Leaf) :
    Inner L P d v ↔ P v := by
  cases v <;> first | exact Iff.rfl | exact h.elim

section

variable (L) (d : ℕ) (after : Value F → Bytes → Charge → Prop)

/-- `n` more members of a list, and then what comes after the list. -/
def ListRest (vs : List (Value F)) (n : ℕ) (w : Bytes) (c : Charge) : Prop :=
  ∃ more w' c', more.length = n ∧ NestedList L Sound d more ∧ after (.list (vs ++ more)) w' c' ∧
    w = wireList more ++ w' ∧ c = costList more + c'

/-- `n` more fields of a record that has `names`, and then what comes after the record. -/
def RecordRest (names : List DbString) (fs : List (DbString × Value F)) (n : ℕ) (w : Bytes)
    (c : Charge) : Prop :=
  ∃ more w' c', more.length = n ∧ Fresh names more ∧ NestedFields L Sound d more ∧
    after (.record (fs ++ more)) w' c' ∧ w = wireFields more ++ w' ∧ c = costFields more + c'

end

/-- What stands on the wire after `x`, which goes into the innermost container, so that the
outermost value becomes `v`. -/
def Filled (L : Limits) (depth : ℕ) (v : Value F) :
    List (Container F) → Value F → Bytes → Charge → Prop
  | [], x, w, c => v = x ∧ w = [] ∧ c = 0
  | .list n vs :: p, x, w, c =>
    ListRest L (depth + p.length + 1) (Filled L depth v p) (vs ++ [x]) (n - 1) w c
  | .record n fs (some k) names :: p, x, w, c =>
    RecordRest L (depth + p.length + 1) (Filled L depth v p) names (fs ++ [(k, x)]) (n - 1) w c
  | .record _ _ none _ :: _, _, _, _ => False

/-- The key in front of a field. -/
def Keyed : List (Container F) → List (Container F) → Bytes → Charge → Prop
  | .record n fs _ names :: p, q, w, c => ∃ k : DbString, k ∉ names ∧
      q = .record n fs (some k) (k :: names) :: p ∧ w = textWire k.val ∧ c = textCost k.val
  | p, q, w, c => q = p ∧ w = [] ∧ c = 0

section

variable (L : Limits) (depth : ℕ) (v : Value F) (p : List (Container F)) (w : Bytes) (c : Charge)

/-- What stands on the wire when a round has read its key. -/
def Behind :
    Prop :=
  ∃ x w' c', Inner L Sound (depth + p.length) x ∧ Filled L depth v p x w' c' ∧
    w = wire x ++ w' ∧ c = cost x + c'

/-- What stands on the wire when a round starts. -/
def Due :
    Prop :=
  ∃ q w₁ w₂ c₁ c₂, depth + p.length ≤ L.depth ∧ Keyed p q w₁ c₁ ∧ Behind L depth v q w₂ c₂ ∧
    w = w₁ ++ w₂ ∧ c = c₁ + c₂

end

variable {v x : Value F} {p q : List (Container F)} {w : Bytes} {c : Charge} {n : ℕ}

variable {d : ℕ} {after : Value F → Bytes → Charge → Prop}

theorem listRest_zero :
    ListRest L d after vs 0 w c ↔ after (.list vs) w c := by
  constructor
  · intro h
    obtain ⟨more, w', c', hlen, -, h, rfl, rfl⟩ := h
    obtain rfl := length_eq_zero_iff.1 hlen
    rw [append_nil] at h
    rw [costList, zero_add]
    exact h
  · intro h
    exact ⟨[], w, c, rfl, trivial, by rw [append_nil]; exact h, rfl, (zero_add _).symm⟩

theorem recordRest_zero {names : List DbString} :
    RecordRest L d after names fs 0 w c ↔ after (.record fs) w c := by
  constructor
  · intro h
    obtain ⟨more, w', c', hlen, -, -, h, rfl, rfl⟩ := h
    obtain rfl := length_eq_zero_iff.1 hlen
    rw [append_nil] at h
    rw [costFields, zero_add]
    exact h
  · intro h
    exact ⟨[], w, c, rfl, trivial, trivial, by rw [append_nil]; exact h, rfl, (zero_add _).symm⟩

theorem due_list (hn : n ≠ 0) : Due L depth v (.list n vs :: p) w c ↔
      ListRest L (depth + p.length + 1) (Filled L depth v p) vs n w c := by
  constructor
  · intro h
    obtain ⟨q, w₁, w₂, c₁, c₂, hdepth, ⟨rfl, rfl, rfl⟩, ⟨x, w', c', hx, hfilled, rfl, rfl⟩, rfl, rfl⟩ := h
    obtain ⟨more, w', c', hlen, hmore, h, rfl, rfl⟩ := hfilled
    refine ⟨x :: more, w', c', ?_, ⟨nested_iff.2 ⟨hdepth, hx⟩, hmore⟩, ?_, ?_, ?_⟩
    · rw [length_cons]
      omega
    · rwa [append_assoc] at h
    · rw [wireList, append_assoc, nil_append]
    · rw [costList, add_assoc, zero_add]
  · intro h
    obtain ⟨more, w', c', hlen, hmore, h, rfl, rfl⟩ := h
    cases more with
    | nil => exact absurd hlen.symm hn
    | cons x more =>
      obtain ⟨hdepth, hx⟩ := nested_iff.1 hmore.1
      refine ⟨_, [], _, 0, _, hdepth, ⟨rfl, rfl, rfl⟩, ⟨x, _, _, hx,
        ⟨more, w', c', ?_, hmore.2, ?_, rfl, rfl⟩, rfl, rfl⟩, ?_, ?_⟩
      · rw [length_cons] at hlen
        omega
      · rwa [append_assoc]
      · rw [wireList, append_assoc, nil_append]
      · rw [costList, add_assoc, zero_add]

theorem due_record {key : Option DbString} {names : List DbString} (hn : n ≠ 0) :
    Due L depth v (.record n fs key names :: p) w c ↔
      RecordRest L (depth + p.length + 1) (Filled L depth v p) names fs n w c := by
  constructor
  · intro h
    obtain ⟨q, w₁, w₂, c₁, c₂, hdepth, ⟨k, hk, rfl, rfl, rfl⟩, ⟨x, w', c', hx, hfilled, rfl, rfl⟩,
      rfl, rfl⟩ := h
    obtain ⟨more, w', c', hlen, hfresh, hmore, h, rfl, rfl⟩ := hfilled
    refine ⟨(k, x) :: more, w', c', ?_, ⟨hk, hfresh⟩, ⟨nested_iff.2 ⟨hdepth, hx⟩, hmore⟩, ?_, ?_, ?_⟩
    · rw [length_cons]
      omega
    · rwa [append_assoc] at h
    · rw [wireFields, append_assoc, append_assoc]
    · rw [costFields, add_assoc, add_assoc]
  · intro h
    obtain ⟨more, w', c', hlen, hfresh, hmore, h, rfl, rfl⟩ := h
    cases more with
    | nil => exact absurd hlen.symm hn
    | cons f more =>
      obtain ⟨k, x⟩ := f
      obtain ⟨hdepth, hx⟩ := nested_iff.1 hmore.1
      refine ⟨_, _, _, _, _, hdepth, ⟨k, hfresh.1, rfl, rfl, rfl⟩, ⟨x, _, _, hx,
        ⟨more, w', c', ?_, hfresh.2, hmore.2, ?_, rfl, rfl⟩, rfl, rfl⟩, ?_, ?_⟩
      · rw [length_cons] at hlen
        omega
      · rwa [append_assoc]
      · rw [wireFields, append_assoc, append_assoc]
      · rw [costFields, add_assoc, add_assoc]

theorem reads_finished {next : List (Container F) → Coding (Value F)}
    (hnext : ∀ q, ReadsBelow (meter L) n (next q) fun v w c => Due L depth v q w c) :
    ∀ (p : List (Container F)) (x : Value F),
      ReadsBelow (meter L) n (finished next p x) fun v w c => Filled L depth v p x w c
  | [], x => .of_reads (Reads.pure x)
  | .list k vs :: p, x => by
    have ih := reads_finished hnext p (.list (vs ++ [x]))
    rw [finished, settle] at *
    by_cases hk : k - 1 ≠ 0
    · rw [if_pos hk]
      exact (hnext _).congr fun v w c => due_list hk
    · rw [if_neg hk]
      rw [not_not] at hk
      refine ih.congr fun v w c => ?_
      rw [Filled, hk]
      exact listRest_zero.symm
  | .record k fs (some key) names :: p, x => by
    have ih := reads_finished hnext p (.record (fs ++ [(key, x)]))
    rw [finished, settle] at *
    by_cases hk : k - 1 ≠ 0
    · rw [if_pos hk]
      exact (hnext _).congr fun v w c => due_record hk
    · rw [if_neg hk]
      rw [not_not] at hk
      refine ih.congr fun v w c => ?_
      rw [Filled, hk]
      exact recordRest_zero.symm
  | .record _ _ none _ :: _, _ => .of_reads reads_fail

/-- A counted group: there is a byte for every entry, so the entries may be asked for first. -/
theorem reads_counted (hL : L.Valid) {size : ℕ} {α : Type} {g : ℕ → Coding α}
    {S : ℕ → α → Bytes → Charge → Prop} (hg : ∀ k, ReadsBelow (meter L) n (g k) (S k))
    (hS : ∀ k a w c, S k a w c → k ≤ w.length) :
    ReadsBelow (meter L) n (countFor L size >>= g) fun a w c => ∃ k w' c', S k a w' c' ∧
      w = leBytes 4 k ++ w' ∧ c = countCost size k + c' := by
  intro s a t hn hs
  rw [Attempt.bind_ok]
  constructor
  · intro h
    obtain ⟨k, s', hcount, h⟩ := h
    obtain ⟨-, hb, -, hc, hs'⟩ := (countFor_ok hs).1 hcount
    have hlen := congrArg List.length hb
    rw [length_append] at hlen
    obtain ⟨w', c', hS', hb', hc', ht⟩ := (hg k s' a t (by omega) hs').1 h
    refine ⟨_, _, ⟨k, w', c', hS', rfl, rfl⟩, ?_, ?_, ht⟩
    · rw [hb, hb', append_assoc]
    · rw [hc', hc, add_assoc]
  · intro h
    obtain ⟨w, c, ⟨k, w', c', hS', rfl, rfl⟩, hb, hc, ht⟩ := h
    rw [← add_assoc] at hc
    rw [append_assoc] at hb
    have hlen := congrArg List.length hb
    rw [length_append] at hlen
    have hs' : (meter L).fits (s.spent + countCost size k) := (meter L).mono (hc ▸ ht)
    have hitems : s.spent.items + k ≤ L.items := hs'.1
    have hcap := hL.items
    have hbytes := hS k a w' c' hS'
    have hrest : (w' ++ t.bytes).length < n := by omega
    refine ⟨k, ⟨w' ++ t.bytes, s.spent + countCost size k⟩, ?_, ?_⟩
    · refine (countFor_ok hs).2 ⟨by omega, hb, ?_, rfl, hs'⟩
      rw [length_append]
      omega
    · exact (hg k _ a t hrest hs').2 ⟨w', c', hS', rfl, hc, ht⟩

theorem wire_length_pos (v : Value F) : 0 < (wire v).length := by
  cases v <;> simp [wire]

theorem length_le_wireList (vs : List (Value F)) : vs.length ≤ (wireList vs).length := by
  induction vs with
  | nil => rfl
  | cons v vs ih =>
    have hv := wire_length_pos v
    rw [wireList, length_append, length_cons]
    omega

theorem length_le_wireFields (fs : List (DbString × Value F)) : fs.length ≤ (wireFields fs).length := by
  induction fs with
  | nil => rfl
  | cons f fs ih =>
    have hv := wire_length_pos f.2
    rw [wireFields, length_append, length_append, length_cons]
    omega

theorem reads_key (hL : L.Valid) : ∀ p : List (Container F), Reads (meter L) (readKey L p) (Keyed p)
  | [] => Reads.pure []
  | .list k vs :: p => Reads.pure _
  | .record k fs key names :: p => by
    have hbody : ∀ key : DbString, Reads (meter L)
        (if key ∈ names then fail (.invalid "duplicate record field")
          else pure (.record k fs (some key) (key :: names) :: p) : Coding (List (Container F)))
        fun q w c => key ∉ names ∧ q = .record k fs (some key) (key :: names) :: p ∧ w = [] ∧ c = 0 := by
      intro key
      split
      · rename_i hkey
        exact reads_fail.congr fun q w c => iff_of_false id fun h => h.1 hkey
      · rename_i hkey
        exact (Reads.pure _).congr fun q w c => (and_iff_right hkey).symm
    rw [readKey, ← Attempt.bind_bind]
    refine ((reads_name (reads_text hL)).bind hbody).congr fun q w c => ?_
    constructor
    · intro h
      obtain ⟨key, w₁, w₂, c₁, c₂, ⟨rfl, rfl⟩, ⟨hkey, rfl, rfl, rfl⟩, rfl, rfl⟩ := h
      exact ⟨key, hkey, rfl, append_nil _, add_zero _⟩
    · intro h
      obtain ⟨key, hkey, rfl, rfl, rfl⟩ := h
      exact ⟨key, _, [], _, 0, ⟨rfl, rfl⟩, ⟨hkey, rfl, rfl, rfl⟩, (append_nil _).symm,
        (add_zero _).symm⟩

/-- What follows the tag of a value. -/
def body : Value F → Bytes
  | .list vs => leBytes 4 vs.length ++ wireList vs
  | .record fs => leBytes 4 fs.length ++ wireFields fs
  | v => payload v

def bodyCost : Value F → Charge
  | .list vs => countCost 64 vs.length + costList vs
  | .record fs => countCost 64 fs.length + costFields fs
  | v => payloadCost v

theorem wire_eq (v : Value F) : wire v = tag v :: body v := by
  cases v <;> rfl

theorem cost_eq (v : Value F) : cost v = ⟨1, 128, 0⟩ + bodyCost v := by
  cases v <;> rfl

theorem body_leaf (h : v.Leaf) : body v = payload v ∧ bodyCost v = payloadCost v := by
  cases v <;> first | exact ⟨rfl, rfl⟩ | exact h.elim

/-- What stands on the wire behind the tag `t`. -/
def BehindTag (L : Limits) (depth : ℕ) (p : List (Container F)) (t : UInt8) (v : Value F) (w : Bytes)
    (c : Charge) : Prop :=
  ∃ x w' c', tag x = t ∧ Inner L Sound (depth + p.length) x ∧ Filled L depth v p x w' c' ∧
    w = body x ++ w' ∧ c = bodyCost x + c'

section

variable {next : List (Container F) → Coding (Value F)}
  (hnext : ∀ q, ReadsBelow (meter L) n (next q) fun v w c => Due L depth v q w c)

include hnext

section

variable (hL : L.Valid) (p : List (Container F))
include hL

/-- A container: its count, then its members, or the next round when it has none. -/
theorem reads_members {first : ℕ → Container F} {empty : Value F}
    {rest : ℕ → Value F → Bytes → Charge → Prop}
    (hdue : ∀ {k v w c}, k ≠ 0 → (Due L depth v (first k :: p) w c ↔ rest k v w c))
    (hzero : ∀ {v w c}, rest 0 v w c ↔ Filled L depth v p empty w c)
    (hcount : ∀ k v w c, rest k v w c → k ≤ w.length) :
    ReadsBelow (meter L) n
      (count L >>= fun k => if k ≠ 0 then next (first k :: p) else finished next p empty)
      fun v w c => ∃ k w' c', rest k v w' c' ∧ w = leBytes 4 k ++ w' ∧ c = countCost 64 k + c' := by
  refine reads_counted hL (fun k => ?_) hcount
  by_cases hk : k ≠ 0
  · rw [if_pos hk]
    exact (hnext _).congr fun v w c => hdue hk
  · rw [if_neg hk]
    rw [not_not] at hk
    rw [hk]
    exact (reads_finished hnext p _).congr fun v w c => hzero.symm

theorem reads_list :
    ReadsBelow (meter L) n (count L >>= fun k =>
      if k ≠ 0 then next (.list k [] :: p) else finished next p (.list []))
      (BehindTag L depth p 11) := by
  refine (reads_members hnext hL p due_list listRest_zero fun k v w c h => ?_).congr fun v w c => ?_
  · obtain ⟨more, w', c', rfl, -, -, rfl, -⟩ := h
    have := length_le_wireList more
    rw [length_append]
    omega
  constructor
  · intro h
    obtain ⟨k, w', c', ⟨more, w', c', rfl, hmore, h, rfl, rfl⟩, rfl, rfl⟩ := h
    exact ⟨.list more, w', c', rfl, hmore, h, (append_assoc ..).symm, (add_assoc ..).symm⟩
  · intro h
    obtain ⟨x, w', c', hx, hmore, h, rfl, rfl⟩ := h
    obtain ⟨more, rfl⟩ := list_of_tag hx
    exact ⟨_, _, _, ⟨more, w', c', rfl, hmore, h, rfl, rfl⟩, append_assoc .., add_assoc ..⟩

theorem reads_record :
    ReadsBelow (meter L) n (count L >>= fun k =>
      if k ≠ 0 then next (.record k [] none [] :: p) else finished next p (.record []))
      (BehindTag L depth p 12) := by
  refine (reads_members hnext hL p due_record recordRest_zero fun k v w c h => ?_).congr fun v w c => ?_
  · obtain ⟨more, w', c', rfl, -, -, -, rfl, -⟩ := h
    have := length_le_wireFields more
    rw [length_append]
    omega
  constructor
  · intro h
    obtain ⟨k, w', c', ⟨more, w', c', rfl, hfresh, hmore, h, rfl, rfl⟩, rfl, rfl⟩ := h
    exact ⟨.record more, w', c', rfl, ⟨hfresh, hmore⟩, h, (append_assoc ..).symm,
      (add_assoc ..).symm⟩
  · intro h
    obtain ⟨x, w', c', hx, hmore, h, rfl, rfl⟩ := h
    obtain ⟨more, rfl⟩ := record_of_tag hx
    exact ⟨_, _, _, ⟨more, w', c', rfl, hmore.1, hmore.2, h, rfl, rfl⟩, append_assoc ..,
      add_assoc ..⟩

theorem reads_leaf {t : UInt8}
    (hlist : t ≠ 11) (hrecord : t ≠ 12) :
    ReadsBelow (meter L) n (scalar L t >>= fun x => finished next p x) (BehindTag L depth p t) := by
  refine (ReadsBelow.bind (k := 0) (reads_scalar hL t) (fun _ _ _ _ => Nat.zero_le _)
    (reads_finished hnext p)).congr fun v w c => ?_
  constructor
  · intro h
    obtain ⟨x, w₁, w₂, c₁, c₂, ⟨rfl, hplain, hread, rfl, rfl⟩, h, rfl, rfl⟩ := h
    have hleaf := leaf_iff.2 ⟨hlist, hrecord⟩
    obtain ⟨hbody, hcost⟩ := body_leaf hleaf
    exact ⟨x, w₂, c₂, rfl, (inner_leaf hleaf).2 ⟨hplain, hread⟩, h, by rw [hbody], by rw [hcost]⟩
  · intro h
    obtain ⟨x, w', c', rfl, hx, h, rfl, rfl⟩ := h
    have hleaf := leaf_iff.2 ⟨hlist, hrecord⟩
    obtain ⟨hbody, hcost⟩ := body_leaf hleaf
    obtain ⟨hplain, hread⟩ := (inner_leaf hleaf).1 hx
    exact ⟨x, _, w', _, c', ⟨rfl, hplain, hread, hbody, hcost⟩, h, rfl, rfl⟩

theorem reads_afterKey :
    ReadsBelow (meter L) (n + 1) (afterKey L next p) fun v w c => Behind L depth v p w c := by
  have htag : ∀ t : UInt8, ReadsBelow (meter L) n
      (if t = 11 then do
          let k ← count L
          if k ≠ 0 then next (.list k [] :: p) else finished next p (.list [])
        else if t = 12 then do
          let k ← count L
          if k ≠ 0 then next (.record k [] none [] :: p) else finished next p (.record [])
        else do
          let x ← scalar L t
          finished next p x) (BehindTag L depth p t) := by
    intro t
    split
    · rename_i ht
      rw [ht]
      exact reads_list hnext hL p
    rename_i hlist
    split
    · rename_i ht
      rw [ht]
      exact reads_record hnext hL p
    · rename_i hrecord
      exact reads_leaf hnext hL p hlist hrecord
  -- the tag is the byte that pays for this round
  have hbyte := ReadsBelow.bind (k := 1) (reads_u8 (L := L))
    (fun a w c h => by rw [h.1]; exact le_rfl) htag
  refine (ReadsBelow.bind (k := 0) (reads_charge 1 128) (fun _ _ _ _ => Nat.zero_le _)
    fun _ => hbyte).congr fun v w c => ?_
  constructor
  · intro h
    obtain ⟨u, w₁, w₂, c₁, c₂, ⟨rfl, rfl⟩, ⟨t, w3, w4, c3, c4, ⟨rfl, rfl⟩,
      ⟨x, w', c', rfl, hx, h, rfl, rfl⟩, rfl, rfl⟩, rfl, rfl⟩ := h
    refine ⟨x, w', c', hx, h, ?_, ?_⟩
    · rw [wire_eq]
      rfl
    · rw [cost_eq, zero_add, add_assoc]
  · intro h
    obtain ⟨x, w', c', hx, h, rfl, rfl⟩ := h
    refine ⟨(), [], _, _, _, ⟨rfl, rfl⟩, ⟨tag x, _, _, 0, _, ⟨rfl, rfl⟩,
      ⟨x, w', c', rfl, hx, h, rfl, rfl⟩, rfl, rfl⟩, ?_, ?_⟩
    · rw [wire_eq]
      rfl
    · rw [cost_eq, zero_add, add_assoc]

end

end

theorem reads_rounds (hL : L.Valid) (depth : ℕ) : ∀ (n : ℕ) (p : List (Container F)),
    ReadsBelow (meter L) n (rounds L depth n p) fun v w c => Due L depth v p w c
  | 0, p => fun s _ _ h => absurd h (Nat.not_lt_zero _)
  | n + 1, p => by
    have hround := reads_afterKey (reads_rounds hL depth n) hL
    have hkey := ReadsBelow.bind (k := 0) (reads_key hL p) (fun _ _ _ _ => Nat.zero_le _) hround
    refine (ReadsBelow.bind (k := 0) Reads.check (fun _ _ _ _ => Nat.zero_le _)
      fun _ => hkey).congr fun v w c => ?_
    constructor
    · intro h
      obtain ⟨u, w₁, w₂, c₁, c₂, ⟨hdepth, rfl, rfl⟩, ⟨q, w3, w4, c3, c4, hq, h, rfl, rfl⟩, rfl, rfl⟩ := h
      split at hdepth
      · cases hdepth
      · exact ⟨q, w3, w4, c3, c4, by omega, hq, h, rfl, zero_add _⟩
    · intro h
      obtain ⟨q, w₁, w₂, c₁, c₂, hdepth, hq, h, rfl, rfl⟩ := h
      exact ⟨(), [], _, 0, _, ⟨if_neg (by omega), rfl, rfl⟩, ⟨q, w₁, w₂, c₁, c₂, hq, h, rfl, rfl⟩, rfl,
        (zero_add _).symm⟩

theorem reads_value (hL : L.Valid) (d : ℕ) :
    Reads (meter L) (value L d : Coding (Value F)) fun v w c =>
      Nested L Sound d v ∧ w = wire v ∧ c = cost v := by
  intro s v t hs
  have h := reads_rounds hL d (s.bytes.length + 1) [] s v t (Nat.lt_succ_self _) hs
  have hdue : ∀ w c, Due L d v [] w c ↔ Nested L Sound d v ∧ w = wire v ∧ c = cost v := by
    intro w c
    constructor
    · intro h
      obtain ⟨q, w₁, w₂, c₁, c₂, hdepth, ⟨rfl, rfl, rfl⟩, ⟨x, w', c', hx, ⟨rfl, rfl, rfl⟩, rfl, rfl⟩,
        rfl, rfl⟩ := h
      refine ⟨nested_iff.2 ⟨hdepth, hx⟩, append_nil _, ?_⟩
      rw [add_zero, zero_add]
    · intro h
      obtain ⟨hv, rfl, rfl⟩ := h
      obtain ⟨hdepth, hx⟩ := nested_iff.1 hv
      exact ⟨[], [], _, 0, _, hdepth, ⟨rfl, rfl, rfl⟩, ⟨v, [], 0, hx, ⟨rfl, rfl, rfl⟩,
        (append_nil _).symm, (add_zero _).symm⟩, rfl, (zero_add _).symm⟩
  simp only [hdue] at h
  exact h

end Selene.Logical
