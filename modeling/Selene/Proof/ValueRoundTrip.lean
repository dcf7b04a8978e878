import Selene.Proof.ValueCodec

/-!
# The value codec, both ways

Encoder and decoder speak of one wire, so most of a round trip is already there. What is left is
the difference between the two: the encoder writes every JSON document, the decoder gives back those
whose objects do not start with the number token. `wire_determines` shows that the bytes of the
others are no other value's either.
-/

namespace Selene.Logical

open Octets Metered Core List Option Limits

variable {F : Foreign} {L : Limits} {bytes : Bytes}

/-! ## What is encoded and what is decoded -/

theorem fits_right {a b : Charge} (h : (meter L).fits (a + b)) : (meter L).fits b :=
  (meter L).mono (by rw [add_comm]; exact h)

theorem fits_zero : (meter L).fits 0 := ⟨Nat.zero_le _, Nat.zero_le _, Nat.zero_le _⟩

/-- The values whose leaves satisfy `P`, on the wire. -/
def valueForm (L : Limits) (P : Value F → Prop) : Form Charge (Value F) := ⟨Nested L P 1, wire, cost⟩

theorem valueForm_written (hL : L.Valid) :
    (valueForm L (Plain (F := F))).Written (meter L) fun v => Encoder.value L v 1 :=
  fun v => writes_value hL v 1

theorem valueForm_read (hL : L.Valid) :
    (valueForm L (Sound (F := F))).Read (meter L) (Decoder.value L 1) :=
  reads_value hL 1

theorem encodeValue_ok {v : StoredValue F} : encodeValue v L = .ok bytes ↔
    L.validate = .ok L ∧ Nested L Plain 1 v.val ∧ bytes = wire v.val ∧ bytes.length ≤ L.bytes ∧
      (meter L).fits (cost v.val) := by
  unfold encodeValue
  constructor
  · intro h
    split at h
    · cases h
    rename_i L' hvalid
    obtain ⟨rfl, hL⟩ := validate_ok hvalid
    exact ⟨hvalid, ((valueForm_written hL).encode_iff fits_zero).1 h⟩
  · intro h
    have hL := (validate_ok h.1).2
    rw [h.1]
    exact ((valueForm_written hL).encode_iff fits_zero).2 h.2

theorem value_finish {v : Value F} {t : Stream Charge} :
    (do let v ← Decoder.value L 1; Decoder.finish; pure v : Coding (Value F)) ⟨bytes, 0⟩ = (.ok v, t) ↔
      Decoder.value L 1 ⟨bytes, 0⟩ = (.ok v, t) ∧ t.bytes = [] := by
  rw [Attempt.bind_ok]
  constructor
  · intro h
    obtain ⟨v', s, hv, hrest⟩ := h
    obtain ⟨u, s', hend, hret⟩ := Attempt.bind_ok.1 hrest
    obtain ⟨hend, rfl⟩ := Attempt.check_ok.1 hend
    cases hret
    split at hend
    · rename_i hs
      exact ⟨hv, hs⟩
    · cases hend
  · intro h
    exact ⟨v, t, h.1, Attempt.bind_ok.2 ⟨(), t, Attempt.check_ok.2 ⟨if_pos h.2, rfl⟩, rfl⟩⟩

theorem decodeValue_ok {v : StoredValue F} : decodeValue bytes L = .ok v ↔
    L.validate = .ok L ∧ Nested L Sound 1 v.val ∧ bytes = wire v.val ∧ bytes.length ≤ L.bytes ∧
      (meter L).fits (cost v.val) := by
  unfold decodeValue
  constructor
  · intro h
    split at h
    · cases h
    rename_i L' hvalid
    obtain ⟨rfl, hL⟩ := validate_ok hvalid
    split at h
    · cases h
    rename_i hlen
    split at h
    · cases h
    rename_i v' t hrun
    split at h
    · cases h
      have hdecodes : Decodes (Decoder.value L' 1) bytes v' := ⟨t, value_finish.1 hrun⟩
      obtain ⟨hv, hb, hc⟩ := ((valueForm_read hL).decodes_iff fits_zero).1 hdecodes
      exact ⟨hvalid, hv, hb, by omega, hc⟩
    · cases h
  · intro h
    obtain ⟨hvalid, hv, hb, hlen, hc⟩ := h
    have hL := (validate_ok hvalid).2
    obtain ⟨t, hdecodes⟩ := ((valueForm_read hL).decodes_iff fits_zero).2 ⟨hv, hb, hc⟩
    rw [hvalid]
    dsimp only
    rw [if_neg (by omega), value_finish.2 hdecodes]
    exact dif_pos v.property

/-! ## The documents that are read back -/

theorem Nested.mono {P Q : Value F → Prop} (hPQ : ∀ v, P v → Q v) (v : Value F) :
    ∀ {d : ℕ}, Nested L P d v → Nested L Q d v := by
  induction v using Value.nested_induction with
  | hlist vs ih =>
    intro d h
    refine ⟨h.1, nestedList_iff.2 fun v hv => ih v hv (nestedList_iff.1 h.2 v hv)⟩
  | hrecord fs ih =>
    intro d h
    refine ⟨h.1, h.2.1, nestedFields_iff.2 fun f hf => ih f hf (nestedFields_iff.1 h.2.2 f hf)⟩
  | hleaf v hv =>
    intro d h
    rw [nested_leaf hv] at h ⊢
    exact ⟨h.1, hPQ v h.2⟩

theorem sound_leaf (hF : F.Lawful) {v : Value F} (h : v.Leaf) : Sound v ↔ Plain v ∧ v.Readable := by
  have htext : ∀ {α : Type} {t : Text α}, t.Lawful → ∀ {P : Prop} {a : α},
      P ∧ t.parse (t.print a) = some a ↔ P ∧ True :=
    fun ht => and_congr_right fun _ => iff_of_true (ht _) trivial
  cases v
  case json j => exact and_congr_right fun _ => jsonValue_iff hF
  case date d => exact htext hF.date
  case localTime t => exact htext hF.time
  case localDateTime t => exact htext hF.dateTime
  case zonedTime z | zonedDateTime z => exact htext hF.zoned
  all_goals first | exact Iff.rfl | exact h.elim

theorem nested_sound_iff (hF : F.Lawful) (v : Value F) :
    ∀ d, Nested L Sound d v ↔ Nested L Plain d v ∧ v.Readable := by
  induction v using Value.nested_induction with
  | hlist vs ih =>
    intro d
    have hmembers : NestedList L Sound (d + 1) vs ↔
        NestedList L Plain (d + 1) vs ∧ Value.ReadableList vs := by
      simp only [nestedList_iff, Value.readableList_iff, ← forall_and]
      exact forall₂_congr fun v hv => ih v hv (d + 1)
    simp only [Nested, Value.Readable, hmembers, and_assoc]
  | hrecord fs ih =>
    intro d
    have hmembers : NestedFields L Sound (d + 1) fs ↔
        NestedFields L Plain (d + 1) fs ∧ Value.ReadableFields fs := by
      simp only [nestedFields_iff, Value.readableFields_iff, ← forall_and]
      exact forall₂_congr fun f hf => ih f hf (d + 1)
    simp only [Nested, Value.Readable, hmembers, and_assoc]
  | hleaf v hv =>
    intro d
    rw [nested_leaf hv, nested_leaf hv, sound_leaf hF hv, and_assoc]

/-! ## The bytes of a value -/

theorem json_of_tag {v : Value F} (h : tag v = 15) : ∃ j, v = .json j := by
  cases v <;> first | exact ⟨_, rfl⟩ | cases h

theorem plainReadable_of_tag (hF : F.Lawful) {v : Value F} (h : tag v ≠ 15) : PlainReadable v := by
  cases v
  case json j => exact absurd rfl h
  case date d => exact hF.date d
  case localTime t => exact hF.time t
  case localDateTime t => exact hF.dateTime t
  case zonedTime z | zonedDateTime z => exact hF.zoned z
  all_goals trivial

section

variable {v v' : Value F} {r r' : Bytes}

theorem payload_determines (hL : L.Valid) (hF : F.Lawful) (htag : tag v = tag v') (hv : Plain v)
    (hv' : Plain v') (hc : (meter L).fits (payloadCost v)) (hc' : (meter L).fits (payloadCost v'))
    (hw : payload v ++ r = payload v' ++ r') : v = v' ∧ r = r' := by
  by_cases hjson : tag v = 15
  · obtain ⟨j, rfl⟩ := json_of_tag hjson
    obtain ⟨j', rfl⟩ := json_of_tag (htag.symm.trans hjson)
    have hprint : F.json.print j.value = F.json.print j'.value ∧ r = r' :=
      (reads_text hL).unique ⟨rfl, rfl⟩ ⟨rfl, rfl⟩ ((meter L).mono hc) ((meter L).mono hc') hw
    have hdoc : j.value = j'.value := by
      have h := hF.json j.value
      rw [hprint.1, hF.json j'.value] at h
      exact (Option.some.inj h).symm
    refine ⟨?_, hprint.2⟩
    cases j
    cases j'
    cases hdoc
    rfl
  · have hread := plainReadable_of_tag hF hjson
    have hread' := plainReadable_of_tag hF (htag ▸ hjson)
    exact (reads_scalar hL (tag v)).unique ⟨rfl, hv, hread, rfl, rfl⟩
      ⟨htag.symm, hv', hread', rfl, rfl⟩ hc hc' hw

end

/-- What one value's bytes determine. -/
def Determined (L : Limits) (v : Value F) : Prop := ∀ {d d' : ℕ} {v' : Value F} {r r' : Bytes},
  Nested L Plain d v → Nested L Plain d' v' → (meter L).fits (cost v) → (meter L).fits (cost v') →
    wire v ++ r = wire v' ++ r' → v = v' ∧ r = r'

theorem wireList_determines {d d' : ℕ} : ∀ {vs vs' : List (Value F)} {r r' : Bytes},
    (∀ v ∈ vs, Determined L v) → vs.length = vs'.length → NestedList L Plain d vs →
    NestedList L Plain d' vs' → (meter L).fits (costList vs) → (meter L).fits (costList vs') →
    wireList vs ++ r = wireList vs' ++ r' → vs = vs' ∧ r = r'
  | [], [], r, r', _, _, _, _, _, _, hw => ⟨rfl, hw⟩
  | v :: vs, v' :: vs', r, r', h, hlen, hv, hv', hc, hc', hw => by
    rw [wireList, wireList, append_assoc, append_assoc] at hw
    obtain ⟨rfl, hrest⟩ := h v mem_cons_self hv.1 hv'.1 ((meter L).mono hc) ((meter L).mono hc') hw
    obtain ⟨rfl, hr⟩ := wireList_determines (fun x hx => h x (mem_cons_of_mem _ hx))
      (Nat.succ.inj hlen) hv.2 hv'.2 (fits_right hc) (fits_right hc') hrest
    exact ⟨rfl, hr⟩

theorem wireFields_determines (hL : L.Valid) {d d' : ℕ} :
    ∀ {fs fs' : List (DbString × Value F)} {r r' : Bytes},
    (∀ f ∈ fs, Determined L f.2) → fs.length = fs'.length → NestedFields L Plain d fs →
    NestedFields L Plain d' fs' → (meter L).fits (costFields fs) → (meter L).fits (costFields fs') →
    wireFields fs ++ r = wireFields fs' ++ r' → fs = fs' ∧ r = r'
  | [], [], r, r', _, _, _, _, _, _, hw => ⟨rfl, hw⟩
  | (k, v) :: fs, (k', v') :: fs', r, r', h, hlen, hv, hv', hc, hc', hw => by
    rw [wireFields, wireFields] at hw
    simp only [append_assoc] at hw
    have hkey : k.val = k'.val ∧ wire v ++ (wireFields fs ++ r) = wire v' ++ (wireFields fs' ++ r') :=
      (reads_text hL).unique ⟨rfl, rfl⟩ ⟨rfl, rfl⟩ ((meter L).mono hc) ((meter L).mono hc') hw
    obtain ⟨hk, hvalue⟩ := hkey
    obtain rfl := Subtype.ext hk
    have hcv := fits_right hc
    have hcv' := fits_right hc'
    obtain ⟨hv1, hrest⟩ := h (k, v) mem_cons_self hv.1 hv'.1 ((meter L).mono hcv)
      ((meter L).mono hcv') hvalue
    obtain ⟨rfl, hr⟩ := wireFields_determines hL (fun x hx => h x (mem_cons_of_mem _ hx))
      (Nat.succ.inj hlen) hv.2 hv'.2 (fits_right hcv) (fits_right hcv') hrest
    exact ⟨by rw [← hv1], hr⟩

theorem count_determines {n n' : ℕ} {w w' : Bytes} (hn : n < 2 ^ 32) (hn' : n' < 2 ^ 32)
    (h : leBytes 4 n ++ w = leBytes 4 n' ++ w') : n = n' ∧ w = w' := by
  obtain ⟨hcount, hw⟩ := append_inj h (by rw [length_leBytes, length_leBytes])
  have hnat := congrArg leNat hcount
  rw [leNat_leBytes (by omega), leNat_leBytes (by omega)] at hnat
  exact ⟨hnat, hw⟩

theorem fits_count (hL : L.Valid) {size n : ℕ} {c : Charge} (h : (meter L).fits (countCost size n + c)) :
    n < 2 ^ 32 := by
  have hitems : n + c.items ≤ L.items := h.1
  have := hL.items
  omega

theorem wire_determines (hL : L.Valid) (hF : F.Lawful) (v : Value F) : Determined L v := by
  induction v using Value.nested_induction with
  | hlist vs ih =>
    intro d d' v' r r' hv hv' hc hc' hw
    rw [wire_eq v', cons_append] at hw
    obtain ⟨vs', rfl⟩ := list_of_tag (cons.inj hw).1.symm
    have hbody := (cons.inj hw).2
    simp only [body, append_assoc] at hbody
    obtain ⟨hlen, hrest⟩ := count_determines (fits_count hL (fits_right hc))
      (fits_count hL (fits_right hc')) hbody
    obtain ⟨rfl, hr⟩ := wireList_determines ih hlen hv.2 hv'.2 (fits_right (fits_right hc))
      (fits_right (fits_right hc')) hrest
    exact ⟨rfl, hr⟩
  | hrecord fs ih =>
    intro d d' v' r r' hv hv' hc hc' hw
    rw [wire_eq v', cons_append] at hw
    obtain ⟨fs', rfl⟩ := record_of_tag (cons.inj hw).1.symm
    have hbody := (cons.inj hw).2
    simp only [body, append_assoc] at hbody
    obtain ⟨hlen, hrest⟩ := count_determines (fits_count hL (fits_right hc))
      (fits_count hL (fits_right hc')) hbody
    obtain ⟨rfl, hr⟩ := wireFields_determines hL ih hlen hv.2.2 hv'.2.2 (fits_right (fits_right hc))
      (fits_right (fits_right hc')) hrest
    exact ⟨rfl, hr⟩
  | hleaf v hleaf =>
    intro d d' v' r r' hv hv' hc hc' hw
    rw [wire_eq v', wire_leaf hleaf, cons_append] at hw
    obtain ⟨htag, hbody⟩ := cons.inj hw
    have hleaf' : v'.Leaf := leaf_iff.2 (by rw [← htag]; exact leaf_iff.1 hleaf)
    rw [nested_leaf hleaf] at hv
    rw [nested_leaf hleaf'] at hv'
    rw [cost_leaf hleaf] at hc
    rw [cost_leaf hleaf'] at hc'
    rw [(body_leaf hleaf').1] at hbody
    exact payload_determines hL hF htag hv.2 hv'.2 (fits_right hc) (fits_right hc') hbody

/-! ## A foreign text -/

/-- A text printed by an injective function is parsed by its inverse. -/
noncomputable def Text.ofPrint {α : Type} (print : α → String) : Text α where
  print := print
  parse s := open Classical in if h : ∃ a, print a = s then some h.choose else none

theorem Text.ofPrint_lawful {α : Type} {print : α → String} (h : Function.Injective print) :
    (Text.ofPrint print).Lawful := by
  intro a
  have hex : ∃ b, print b = print a := ⟨a, rfl⟩
  have hparse : (Text.ofPrint print).parse (print a) = some hex.choose := dif_pos hex
  exact hparse.trans (congrArg some (h hex.choose_spec))

/-- A character inside a string; of those that `serde_json` escapes, the control characters are left
as they are. -/
def escaped (c : Char) : List Char := if c = '"' ∨ c = '\\' then ['\\', c] else [c]

def quote (s : String) : List Char := '"' :: (s.toList.flatMap escaped ++ ['"'])

mutual

/-- The compact text of a document, as `serde_json` writes it. -/
def textOf : Json Unit → List Char
  | .null => ['n', 'u', 'l', 'l']
  | .bool true => ['t', 'r', 'u', 'e']
  | .bool false => ['f', 'a', 'l', 's', 'e']
  | .number _ => ['0']
  | .string s => quote s
  | .array items => '[' :: textOfList true items
  | .object fields => '\x7b' :: textOfFields true fields

/-- The rest of an array; what is not `first` stands behind a comma. -/
def textOfList : Bool → List (Json Unit) → List Char
  | _, [] => [']']
  | true, j :: js => textOf j ++ textOfList false js
  | false, j :: js => ',' :: (textOf j ++ textOfList false js)

def textOfFields : Bool → List (String × Json Unit) → List Char
  | _, [] => ['\x7d']
  | true, (key, j) :: fields => quote key ++ ':' :: (textOf j ++ textOfFields false fields)
  | false, (key, j) :: fields => ',' :: (quote key ++ ':' :: (textOf j ++ textOfFields false fields))

end

theorem escaped_determines {c c' : Char} {r r' : List Char} (h : escaped c ++ r = escaped c' ++ r') :
    c = c' ∧ r = r' := by
  unfold escaped at h
  split at h <;> split at h <;> grind

theorem escaped_ne_quote (c : Char) (r r' : List Char) : escaped c ++ r ≠ '"' :: r' := by
  unfold escaped
  split <;> simp_all

theorem quote_determines {s s' : String} {r r' : List Char} (h : quote s ++ r = quote s' ++ r') :
    s = s' ∧ r = r' := by
  have hchars : ∀ cs cs' : List Char, cs.flatMap escaped ++ '"' :: r = cs'.flatMap escaped ++ '"' :: r' →
      cs = cs' ∧ r = r' := by
    intro cs
    induction cs with
    | nil =>
      rintro (- | ⟨c, cs'⟩) h
      · exact ⟨rfl, (cons.inj h).2⟩
      · rw [flatMap_cons, append_assoc] at h
        exact absurd h.symm (escaped_ne_quote _ _ _)
    | cons c cs ih =>
      rintro (- | ⟨c', cs'⟩) h
      · rw [flatMap_cons, append_assoc] at h
        exact absurd h (escaped_ne_quote _ _ _)
      · rw [flatMap_cons, flatMap_cons, append_assoc, append_assoc] at h
        obtain ⟨rfl, hrest⟩ := escaped_determines h
        obtain ⟨rfl, hr⟩ := ih cs' hrest
        exact ⟨rfl, hr⟩
  obtain ⟨hs, hr⟩ := hchars s.toList s'.toList (by simpa [quote] using h)
  exact ⟨String.toList_inj.1 hs, hr⟩

theorem textOf_ne_close (j : Json Unit) (r r' : List Char) : textOf j ++ r ≠ ']' :: r' := by
  intro h
  cases j with
  | bool b => cases b <;> cases h
  | _ => cases h

mutual

theorem textOf_determines : ∀ {j j' : Json Unit} {r r' : List Char},
    textOf j ++ r = textOf j' ++ r' → j = j' ∧ r = r'
  | .null, j', r, r', h => by
    cases j' with
    | null => exact ⟨rfl, append_cancel_left h⟩
    | bool b => cases b <;> cases h
    | _ => cases h
  | .bool b, j', r, r', h => by
    cases j' with
    | bool b' => cases b <;> cases b' <;> first | exact ⟨rfl, append_cancel_left h⟩ | cases h
    | _ => cases b <;> cases h
  | .number _, j', r, r', h => by
    cases j' with
    | number _ => exact ⟨rfl, append_cancel_left h⟩
    | bool b => cases b <;> cases h
    | _ => cases h
  | .string s, j', r, r', h => by
    cases j' with
    | string s' =>
      obtain ⟨rfl, hr⟩ := quote_determines h
      exact ⟨rfl, hr⟩
    | bool b => cases b <;> cases h
    | _ => cases h
  | .array items, j', r, r', h => by
    cases j' with
    | array items' =>
      obtain ⟨rfl, hr⟩ := textOfList_determines (cons.inj h).2
      exact ⟨rfl, hr⟩
    | bool b => cases b <;> cases h
    | _ => cases h
  | .object fields, j', r, r', h => by
    cases j' with
    | object fields' =>
      obtain ⟨rfl, hr⟩ := textOfFields_determines (cons.inj h).2
      exact ⟨rfl, hr⟩
    | bool b => cases b <;> cases h
    | _ => cases h

theorem textOfList_determines : ∀ {first : Bool} {js js' : List (Json Unit)} {r r' : List Char},
    textOfList first js ++ r = textOfList first js' ++ r' → js = js' ∧ r = r'
  | first, [], [], r, r', h => ⟨rfl, (cons.inj h).2⟩
  | true, [], _ :: _, _, _, h => by
    rw [textOfList, textOfList, append_assoc] at h
    exact absurd h.symm (textOf_ne_close _ _ _)
  | true, _ :: _, [], _, _, h => by
    rw [textOfList, textOfList, append_assoc] at h
    exact absurd h (textOf_ne_close _ _ _)
  | false, [], _ :: _, _, _, h => by cases h
  | false, _ :: _, [], _, _, h => by cases h
  | first, j :: js, j' :: js', r, r', h => by
    have h' : textOf j ++ (textOfList false js ++ r) = textOf j' ++ (textOfList false js' ++ r') := by
      cases first <;> simpa [textOfList] using h
    obtain ⟨rfl, hrest⟩ := textOf_determines h'
    obtain ⟨rfl, hr⟩ := textOfList_determines hrest
    exact ⟨rfl, hr⟩

theorem textOfFields_determines : ∀ {first : Bool} {fs fs' : List (String × Json Unit)} {r r' : List Char},
    textOfFields first fs ++ r = textOfFields first fs' ++ r' → fs = fs' ∧ r = r'
  | first, [], [], r, r', h => ⟨rfl, (cons.inj h).2⟩
  | first, [], _ :: _, _, _, h => by cases first <;> cases h
  | first, _ :: _, [], _, _, h => by cases first <;> cases h
  | first, (key, j) :: fs, (key', j') :: fs', r, r', h => by
    have h' : quote key ++ ':' :: (textOf j ++ (textOfFields false fs ++ r)) =
        quote key' ++ ':' :: (textOf j' ++ (textOfFields false fs' ++ r')) := by
      cases first <;> simpa [textOfFields] using h
    obtain ⟨rfl, hvalue⟩ := quote_determines h'
    obtain ⟨rfl, hrest⟩ := textOf_determines (cons.inj hvalue).2
    obtain ⟨rfl, hr⟩ := textOfFields_determines hrest
    exact ⟨rfl, hr⟩

end

theorem textOf_injective : Function.Injective fun j => String.ofList (textOf j) := by
  intro j j' h
  have htext : textOf j ++ [] = textOf j' ++ [] := by
    rw [append_nil, append_nil]
    exact String.ofList_injective h
  exact (textOf_determines htext).1

/-- A decimal by its bytes. -/
abbrev PlainDecimal := { b : Bytes // b.length = 16 ∧ decimalFlags b }

def plainDecimal : DecimalFormat PlainDecimal where
  serialize := Subtype.val
  deserialize b := if h : b.length = 16 ∧ decimalFlags b then ⟨b, h⟩ else ⟨replicate 16 0, by decide⟩
  length_serialize d := d.property.1
  flags_serialize d := d.property.2
  deserialize_serialize d := dif_pos d.property
  serialize_deserialize hlen hflags := by rw [dif_pos ⟨hlen, hflags⟩]

def plainSpan : SpanFormat Unit where
  limits := replicate 10 0
  amounts _ := replicate 10 0
  ofAmounts as := if as = replicate 10 0 then some () else none
  ranged _ := by decide
  signed _ := .inl (by simp)
  ofAmounts_iff := by simp

/-- One day, one time, one span, one number, all decimals and documents. -/
noncomputable def plainForeign : Foreign where
  Decimal := PlainDecimal
  Span := Unit
  Date := Unit
  Time := Unit
  DateTime := Unit
  Zoned := Unit
  Number := Unit
  date := ⟨fun _ => "1970-01-01", fun _ => some ()⟩
  time := ⟨fun _ => "00:00:00", fun _ => some ()⟩
  dateTime := ⟨fun _ => "1970-01-01T00:00:00", fun _ => some ()⟩
  zoned := ⟨fun _ => "1970-01-01T00:00:00+00:00[UTC]", fun _ => some ()⟩
  json := Text.ofPrint fun j => String.ofList (textOf j)
  decimal := plainDecimal
  span := plainSpan
  parseNumber _ := some ()
  decimalOf _ := ⟨0, 1, by decide, by decide⟩
  dayOf _ := 0
  nanosecondOf _ := 0
  instantOf _ := 0
  zonedOf _ := ⟨0, "UTC"⟩

theorem plainForeign_lawful : plainForeign.Lawful where
  date _ := rfl
  time _ := rfl
  dateTime _ := rfl
  zoned _ := rfl
  json := Text.ofPrint_lawful textOf_injective

/-! ## Round trips -/

theorem decodeValue_iff_readable (hF : F.Lawful) {v : StoredValue F} (h : encodeValue v L = .ok bytes) :
    decodeValue bytes L = .ok v ↔ v.val.Readable := by
  obtain ⟨hvalid, hplain, hbytes, hlen, hcost⟩ := encodeValue_ok.1 h
  rw [decodeValue_ok, nested_sound_iff hF]
  exact ⟨fun h => h.2.1.2, fun h => ⟨hvalid, ⟨hplain, h⟩, hbytes, hlen, hcost⟩⟩

theorem eq_of_decodeValue (hF : F.Lawful) {v v' : StoredValue F} (h : encodeValue v L = .ok bytes)
    (h' : decodeValue bytes L = .ok v') : v' = v := by
  obtain ⟨hvalid, hplain, hbytes, -, hcost⟩ := encodeValue_ok.1 h
  obtain ⟨-, hsound', hbytes', -, hcost'⟩ := decodeValue_ok.1 h'
  have hplain' := ((nested_sound_iff hF v'.val 1).1 hsound').1
  have hwire : wire v'.val ++ [] = wire v.val ++ [] := by rw [← hbytes, ← hbytes']
  have hL := (Limits.validate_ok hvalid).2
  exact Subtype.ext (wire_determines hL hF v'.val hplain' hplain hcost' hcost hwire).1

/-- **A value that was encoded is decoded again exactly when no object of a JSON document inside it
starts with the number token; otherwise nothing is decoded from its bytes.** -/
theorem value_round_trip_iff (hF : F.Lawful) (v : StoredValue F) (L : Limits) (bytes : Bytes)
    (h : encodeValue v L = .ok bytes) :
    (decodeValue bytes L = .ok v ↔ v.val.Readable) ∧
      ∀ v' : StoredValue F, decodeValue bytes L = .ok v' → v' = v :=
  ⟨decodeValue_iff_readable hF h, fun _ => eq_of_decodeValue hF h⟩

/-- A document with one member, in a list. -/
def memberValue (name : String) (h : (Json.object [(name, .string "12")] : Json Unit).validate = true) :
    StoredValue plainForeign :=
  ⟨.list [.null, .json ⟨.object [(name, .string "12")],
    ⟨pairwise_singleton _ _, trivial, trivial⟩, h⟩], rfl⟩

theorem value_round_trip_document : ∃ bytes,
    encodeValue (memberValue "a" (by decide)) Limits.ceiling = .ok bytes ∧
      decodeValue bytes Limits.ceiling = .ok (memberValue "a" (by decide)) := by
  have hencode := (encodeValue_ok (v := memberValue "a" (by decide)) (L := .ceiling)).2
    ⟨rfl, ⟨by decide, ⟨by decide, trivial⟩, ⟨by decide, trivial⟩, trivial⟩, rfl, by decide, by
      show _ ∧ _ ∧ _
      decide⟩
  have hreadable : (memberValue "a" (by decide)).val.Readable :=
    ⟨trivial, ⟨by decide, trivial, trivial⟩, trivial⟩
  exact ⟨_, hencode, (value_round_trip_iff plainForeign_lawful _ _ _ hencode).1.2 hreadable⟩

/-- The object with the number token for its only key is encoded, and its bytes cannot be decoded. -/
theorem value_round_trip_token : ∃ bytes,
    encodeValue (memberValue numberToken (by decide)) ceiling = .ok bytes ∧
      ∀ v : StoredValue plainForeign, decodeValue bytes ceiling ≠ .ok v := by
  have hencode := (encodeValue_ok (v := memberValue numberToken (by decide)) (L := .ceiling)).2
    ⟨rfl, ⟨by decide, ⟨by decide, trivial⟩, ⟨by decide, trivial⟩, trivial⟩, rfl, by decide, by
      show _ ∧ _ ∧ _
      decide⟩
  refine ⟨_, hencode, ?_⟩
  intro v hv
  obtain rfl := eq_of_decodeValue plainForeign_lawful hencode hv
  have hreadable := (decodeValue_iff_readable plainForeign_lawful hencode).1 hv
  exact hreadable.2.1.1 rfl

/-- **What is accepted is the encoding of what is decoded, and of nothing else that is accepted.** -/
theorem decoded_reencodes {bytes : Bytes} {L : Limits} {v : StoredValue F}
    (h : decodeValue bytes L = .ok v) :
    encodeValue v L = .ok bytes ∧
      ∀ (bytes' : Bytes) (L' : Limits), decodeValue bytes' L' = .ok v → bytes' = bytes := by
  obtain ⟨hvalid, hsound, hbytes, hlen, hcost⟩ := decodeValue_ok.1 h
  refine ⟨encodeValue_ok.2 ⟨hvalid, Nested.mono (fun _ h => h.1) v.val hsound, hbytes, hlen, hcost⟩, ?_⟩
  intro bytes' L' h'
  rw [hbytes]
  exact (decodeValue_ok.1 h').2.2.1

def textValue : StoredValue plainForeign := ⟨.list [.string ⟨"ab", by decide⟩, .list [.float 0]], rfl⟩

theorem decoded_reencodes_text : ∃ bytes, decodeValue bytes ceiling = .ok textValue ∧
    encodeValue textValue ceiling = .ok bytes := by
  have hdecode := (decodeValue_ok (v := textValue) (L := ceiling)).2
    ⟨rfl, ⟨by decide, ⟨by decide, trivial, trivial⟩, ⟨by decide, ⟨by decide, trivial, trivial⟩, trivial⟩, trivial⟩,
      rfl, by decide, by
      show _ ∧ _ ∧ _
      decide⟩
  exact ⟨_, hdecode, (decoded_reencodes hdecode).1⟩

theorem decodeValue_float (bits : UInt64) : decodeValue (6 :: leBytes 8 bits.toNat) ceiling =
      .ok (⟨.float bits, rfl⟩ : StoredValue plainForeign) := by
  refine decodeValue_ok.2 ⟨rfl, ⟨by decide, trivial, trivial⟩, rfl, ?_, ?_⟩
  · rw [length_cons, length_leBytes]
    decide
  · have hfits : (⟨1, 128, 0⟩ + 0 : Charge).items ≤ ceiling.items ∧
        (⟨1, 128, 0⟩ + 0 : Charge).allocation ≤ ceiling.allocation ∧
          (⟨1, 128, 0⟩ + 0 : Charge).metadata ≤ ceiling.metadata := by decide
    exact hfits

/-- Zero and minus zero are equal, and have an encoding each. -/
theorem decoded_zeros_equal : ∃ a b : StoredValue plainForeign,
    decodeValue [6, 0, 0, 0, 0, 0, 0, 0, 0] ceiling = .ok a ∧
      decodeValue [6, 0, 0, 0, 0, 0, 0, 0, 0x80] ceiling = .ok b ∧ Value.eq a.val b.val = true := by
  refine ⟨_, _, decodeValue_float 0, decodeValue_float 0x8000000000000000, ?_⟩
  have hzeros : Graph.Value.eq (.float 0) (.float 0x8000000000000000) = true := by
    rw [Graph.Value.eq]
    decide
  exact hzeros

end Selene.Logical
