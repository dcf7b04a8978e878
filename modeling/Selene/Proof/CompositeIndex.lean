import Mathlib.Algebra.Order.Ring.Rat
import Selene.Proof.DerivedState

/-!
# Composite indexes over whole runs

The components of a composite key are compared within their kind, and by the number of the kind
otherwise; tuples are compared lexicographically. Any sequence of calls of the maintenance, started
from rebuilt indexes, files a row exactly under the tuple of its keys, and keeps the drift tally at
what another rebuild would count (`composite_index_exact`).
-/

namespace Selene.Graph

open List Function Option CompositePropertyIndexEntry

/-! ## The order of the keys -/

namespace TypedKey

def discriminant : TypedKey → ℕ
  | bool _ => 0
  | i64 _ => 1
  | u64 _ => 2
  | i128 _ => 3
  | u128 _ => 4
  | decimal _ => 5
  | f32 _ => 6
  | f64 _ => 7
  | string _ => 8
  | date _ => 9
  | localDateTime _ => 10
  | zonedDateTime _ => 11
  | localTime _ => 12
  | zonedTime _ => 13
  | duration _ => 14
  | uuid _ => 15

/-- The place of a float of `n + 1` bits in `total_cmp`: ascending without the sign bit, descending
with it. -/
def totalPlace (n bits : ℕ) : ℤ := if bits < 2 ^ n then bits else (2 ^ n : ℕ) - 1 - (bits : ℤ)

/-- `Ord for CompositeKeyComponent`. -/
def cmp : TypedKey → TypedKey → Ordering
  | bool a, bool b => compare a b
  | i64 a, i64 b | i128 a, i128 b | date a, date b | localDateTime a, localDateTime b
  | zonedDateTime a, zonedDateTime b | zonedTime a, zonedTime b => compare a b
  | u64 a, u64 b | u128 a, u128 b | localTime a, localTime b | uuid a, uuid b => compare a b
  | decimal a, decimal b => compare a b
  | f32 a, f32 b => compare (totalPlace 31 a.toNat) (totalPlace 31 b.toNat)
  | f64 a, f64 b => compare (totalPlace 63 a.toNat) (totalPlace 63 b.toNat)
  | string a, string b => compare a b
  | duration a, duration b => (compare a.1 b.1).then (compare a.2 b.2)
  | a, b => compare a.discriminant b.discriminant

/-- Keys are compared by `cmp`, and tuples of them lexicographically. -/
instance : Ord TypedKey := ⟨cmp⟩

/-- What is compared within a kind, in one type for all kinds. -/
def place : TypedKey → ℤ × ℤ × ℚ × String
  | bool b => (b.toNat, 0, 0, "")
  | i64 i | i128 i | date i | localDateTime i | zonedDateTime i | zonedTime i => (i, 0, 0, "")
  | u64 n | u128 n | localTime n | uuid n => (n, 0, 0, "")
  | decimal q => (0, 0, q, "")
  | f32 bits => (totalPlace 31 bits.toNat, 0, 0, "")
  | f64 bits => (totalPlace 63 bits.toNat, 0, 0, "")
  | string s => (0, 0, 0, s)
  | duration k => (k.1, k.2, 0, "")

def placeCmp : TypedKey → TypedKey → Ordering :=
  compareLex (compareOn discriminant) (compareLex (compareOn (·.place.1))
    (compareLex (compareOn (·.place.2.1)) (compareLex (compareOn (·.place.2.2.1))
      (compareOn (·.place.2.2.2)))))

theorem compare_natCast (m n : ℕ) : compare (m : ℤ) n = compare m n := by
  have hmono : StrictMono fun n : ℕ => (n : ℤ) := fun _ _ => Int.ofNat_lt.2
  have h := hmono.cmp_map_eq m n
  rwa [cmp_eq_compare, cmp_eq_compare] at h

theorem cmp_eq_placeCmp (a b : TypedKey) : compare a b = placeCmp a b := by
  show cmp a b = _
  cases a <;> cases b <;> first | rfl | skip
  case bool.bool a b => cases a <;> cases b <;> rfl
  all_goals simp [cmp, placeCmp, compareLex, compareOn, place, discriminant, compare_natCast]

theorem totalPlace_inj {n x y : ℕ} (h : totalPlace n x = totalPlace n y) : x = y := by
  unfold totalPlace at h
  split_ifs at h <;> omega

theorem eq_of_place {a b : TypedKey} (hd : a.discriminant = b.discriminant)
    (hp : a.place = b.place) : a = b := by
  have h := congrArg Prod.fst hp
  cases a <;> cases b <;> try cases hd
  case bool.bool a b => cases a <;> cases b <;> first | rfl | cases h
  case f32.f32 a b => rw [UInt32.toNat_inj.1 (totalPlace_inj h)]
  case f64.f64 a b => rw [UInt64.toNat_inj.1 (totalPlace_inj h)]
  all_goals simp [place, Prod.ext_iff] at hp ⊢
  all_goals exact hp

instance : Std.TransOrd TypedKey := by
  show Std.TransCmp (compare : TypedKey → TypedKey → Ordering)
  rw [funext₂ cmp_eq_placeCmp]
  unfold placeCmp
  infer_instance

instance : Std.LawfulEqOrd TypedKey where
  compare_self := Std.ReflOrd.compare_self
  eq_of_compare {a b} h := by
    rw [cmp_eq_placeCmp] at h
    simp only [placeCmp, compareLex, compareOn, Ordering.then_eq_eq, Std.compare_eq_iff_eq] at h
    obtain ⟨hd, h1, h2, h3, h4⟩ := h
    exact eq_of_place hd (Prod.ext h1 (Prod.ext h2 (Prod.ext h3 h4)))

end TypedKey

/-! ## What a row is filed under -/

variable {props : PropertyMap} {properties : List DbString} {kinds : List TypedIndexKind}
  {values : List Value} {k : List TypedKey} {g : SeleneGraph}

/-- The values of the properties, none of them null. -/
def Valued (props : PropertyMap) (properties : List DbString) (values : List Value) : Prop :=
  Forall₂ (fun p v => props[p]? = some v ∧ v.isNull = false) properties values

theorem indexableValues_eq_some {labels : LabelSet} {label : DbString} :
    indexableValues labels props label properties = some values ↔
      label ∈ labels ∧ Valued props properties values := by
  unfold indexableValues Valued
  split
  · next hl => simp [hl, mapM_eq_some_iff, filter_eq_some_iff]
  · next hl => simp [hl]

theorem componentsFrom_ok {pairs : List (TypedIndexKind × Value)} {index : ℕ} :
    componentsFrom index pairs = .ok k ↔
      Forall₂ (fun x c => componentFromValue x.1 x.2 = .ok c) pairs k := by
  induction pairs generalizing index k with
  | nil => simp [componentsFrom, eq_comm]
  | cons x pairs ih =>
    obtain ⟨kind, value⟩ := x
    rw [componentsFrom, forall₂_cons_left_iff]
    cases hc : componentFromValue kind value with
    | error e => cases e <;> simp
    | ok c =>
      have hrest : ∀ m, componentsFrom (index + 1) pairs = .ok m ↔ Forall₂ _ pairs m := fun m => ih
      simp only [bind, Except.bind, Except.ok.injEq, exists_and_left, exists_eq_left', ← hrest]
      cases componentsFrom (index + 1) pairs <;> simp [eq_comm]

/-- As many values as kinds; each fits its kind and has that key. -/
def Fitting (kinds : List TypedIndexKind) (values : List Value) (k : List TypedKey) : Prop :=
  kinds.length = values.length ∧
    Forall₂ (fun x c => componentFromValue x.1 x.2 = .ok c) (kinds.zip values) k

theorem compositeKeyFromValues_ok :
    compositeKeyFromValues kinds values = .ok k ↔ Fitting kinds values k := by
  unfold compositeKeyFromValues Fitting
  split
  · next h => simp [h]
  · next h => rw [componentsFrom_ok, and_iff_right (not_not.1 h)]

variable {label : DbString} {entry : CompositePropertyIndexEntry} {row : Row}

variable (s : NodeSlot) (label : DbString) (entry : CompositePropertyIndexEntry)

/-- The node has the label, and every property a value; this is the tuple of their keys. -/
def FiledUnder (k : List TypedKey) : Prop :=
  label ∈ s.labels ∧ ∃ values, Valued s.properties entry.declaredProperties values ∧
    Fitting entry.kinds values k

/-- The values are there, and their tuple is rejected for another reason than a NaN. -/
def Drifts : Prop :=
  label ∈ s.labels ∧ ∃ values e, Valued s.properties entry.declaredProperties values ∧
    compositeKeyFromValues entry.kinds values = .error e ∧
      ∀ index kind, e ≠ .componentNaN index kind

theorem payloadValues_eq_some : payloadValues label properties (g.nodePayload row) = some values ↔
    ∃ s, g.nodeAt row = some s ∧ label ∈ s.labels ∧ Valued s.properties properties values := by
  simp only [payloadValues, SeleneGraph.nodePayload, bind_map, bind_eq_some_iff, comp_apply,
    indexableValues_eq_some]

section Keying

variable {v : Option (List Value)}

theorem keying_eq_keyed : keying kinds v = .keyed k ↔
    ∃ values, v = some values ∧ compositeKeyFromValues kinds values = .ok k := by
  rcases v with _ | values
  · simp [keying]
  · rcases h : compositeKeyFromValues kinds values with e | k'
    · cases e <;> simp [keying, h, compositeCountsAsDrift]
    · simp [keying, h]

theorem keying_eq_drifted : keying kinds v = .drifted ↔
    ∃ values e, v = some values ∧ compositeKeyFromValues kinds values = .error e ∧
      ∀ index kind, e ≠ .componentNaN index kind := by
  rcases v with _ | values
  · simp [keying]
  · rcases h : compositeKeyFromValues kinds values with e | k'
    · cases e <;> simp [keying, h, compositeCountsAsDrift]
    · simp [keying, h]

end Keying

/-! ## Runs of the maintenance -/

/-- A call of the maintenance with the change of the columns it comes with. A row without a live
node is passed over. -/
inductive NodeEvent where
  | create (id : NodeId) (labels : LabelSet) (props : PropertyMap)
  | update (row : Row) (labels : LabelSet) (props : PropertyMap)
  | remove (row : Row)

def NodeEvent.apply (g : SeleneGraph) : NodeEvent → SeleneGraph
  | create id labels props =>
    { g with
      nodeStore := g.nodeStore ++ [⟨id, labels, props, true⟩]
      compositePropertyIndex := CompositeIndex.applyNodeCreate labels props g.nodeStore.length
        g.compositePropertyIndex }
  | update row labels props => (g.nodeAt row).elim g fun s =>
    { Mutator.setNode row labels props g with
      compositePropertyIndex := CompositeIndex.applyNodeUpdate s.labels s.properties labels props row
        g.compositePropertyIndex }
  | remove row => (g.nodeAt row).elim g fun s =>
    { Mutator.clearNode row g with
      compositePropertyIndex := CompositeIndex.applyNodeDelete s.labels s.properties row
        g.compositePropertyIndex }

/-- `rebuild_composite_property_indexes`: a registered index goes back under its own key. -/
def SeleneGraph.rebuildCompositePropertyIndexes (g : SeleneGraph) : SeleneGraph :=
  { g with compositePropertyIndex := fun key => (g.compositePropertyIndex key).map fun entry =>
      let built := g.buildCompositePropertyIndexLenient key.1 entry.declaredProperties entry.kinds
      { entry with rows := built.rows, driftedRows := built.driftedRows } }

/-- What an index was registered with. -/
def CompositePropertyIndexEntry.registration (entry : CompositePropertyIndexEntry) :=
  (entry.kinds, entry.declaredProperties)

/-- The same indexes are registered, and they are exact. -/
def Maintained (g g' : SeleneGraph) : Prop :=
  CompositeIndex.Exact g'.compositePropertyIndex g'.nodePayload ∧
    ∀ key, (g'.compositePropertyIndex key).map (·.registration) =
      (g.compositePropertyIndex key).map (·.registration)

variable {g₀ g' : SeleneGraph}

theorem Maintained.change {new : Option NodeSlot} (h : Maintained g₀ g)
    (hat : g'.nodeAt = Function.update g.nodeAt row new)
    (hc : g'.compositePropertyIndex = CompositeIndex.visited (g.nodePayload row)
      (new.map fun s => (s.labels, s.properties)) row g.compositePropertyIndex) :
    Maintained g₀ g' := by
  refine ⟨?_, fun key => ?_⟩
  · rw [hc, nodePayload_eq_update hat]
    exact h.1.update _
  · rw [← h.2, hc, CompositeIndex.visited, Option.map_map]
    refine congrArg (Option.map · _) (funext fun entry => ?_)
    exact Prod.ext (entry.replaceCommit_declared _ _ row).1 (entry.replaceCommit_declared _ _ row).2.1

theorem Maintained.apply (h : Maintained g₀ g) (e : NodeEvent) : Maintained g₀ (e.apply g) := by
  have hpay {row s} (hs : g.nodeAt row = some s) :
      g.nodePayload row = some (s.labels, s.properties) := by rw [SeleneGraph.nodePayload, hs]; rfl
  cases e with
  | create id labels props =>
    refine h.change (nodeAt_append rfl rfl) ?_
    rw [SeleneGraph.nodePayload, g.nodeAt_eq_none le_rfl]
    exact CompositeIndex.applyNodeCreate_apply ..
  | update row labels props =>
    cases hs : g.nodeAt row with
    | none => simpa only [NodeEvent.apply, hs, Option.elim_none] using h
    | some s =>
      simp only [NodeEvent.apply, hs, Option.elim_some]
      refine h.change (nodeAt_modify rfl hs) ?_
      rw [hpay hs]
      simp [Option.filter, (g.nodeAt_eq_some.1 hs).2]
      rfl
  | remove row =>
    cases hs : g.nodeAt row with
    | none => simpa only [NodeEvent.apply, hs, Option.elim_none] using h
    | some s =>
      simp only [NodeEvent.apply, hs, Option.elim_some]
      refine h.change (nodeAt_modify rfl hs) ?_
      rw [hpay hs]
      exact CompositeIndex.applyNodeDelete_apply ..

theorem maintained_run (g : SeleneGraph) (events : List NodeEvent) :
    Maintained g (events.foldl NodeEvent.apply g.rebuildCompositePropertyIndexes) := by
  have hrun : ∀ g', Maintained g g' → Maintained g (events.foldl NodeEvent.apply g') := by
    induction events with
    | nil => exact fun g' h => h
    | cons e events ih => exact fun g' h => ih _ (h.apply e)
  refine hrun _ ⟨compositePropertyIndexes_iff.1 fun key entry h => ?_, fun key => ?_⟩
  · obtain ⟨entry, _, rfl⟩ := map_eq_some_iff.1 h
    exact ⟨rfl, rfl⟩
  · exact Option.map_map ..

/-- **Composite indexes**: the order of the keys is total and its equality is that of the
components. After any run of the maintenance, the registered indexes hold the rows under the tuple
of their keys and nothing else, and the tally is the number of drifted rows; a drifted row finds it
above zero when it is taken off. -/
theorem composite_index_exact (g : SeleneGraph) (events : List NodeEvent) :
    let g' := events.foldl NodeEvent.apply g.rebuildCompositePropertyIndexes
    (∀ a b c : List TypedKey, compare b a = (compare a b).swap ∧
      ((compare a b).isLE → (compare b c).isLE → (compare a c).isLE) ∧
      (compare a b = .eq ↔ Forall₂ Eq a b)) ∧
    (∀ key, (g'.compositePropertyIndex key).map (·.registration) =
      (g.compositePropertyIndex key).map (·.registration)) ∧
    ∀ key entry, g'.compositePropertyIndex key = some entry →
      (∀ k row, row ∈ entry.rows k ↔ ∃ s, g'.nodeAt row = some s ∧ FiledUnder s key.1 entry k) ∧
      (∃ drifted : Finset Row,
        (∀ row, row ∈ drifted ↔ ∃ s, g'.nodeAt row = some s ∧ Drifts s key.1 entry) ∧
        entry.driftedRows = drifted.card) ∧
      entry.driftedRows = (g'.buildCompositePropertyIndexLenient key.1 entry.declaredProperties
        entry.kinds).driftedRows ∧
      ∀ row s, g'.nodeAt row = some s → Drifts s key.1 entry → 0 < entry.driftedRows := by
  intro g'
  obtain ⟨hexact, hkept⟩ := maintained_run g events
  refine ⟨fun a b c => ⟨Std.OrientedCmp.eq_swap, Std.TransCmp.isLE_trans, ?_⟩, hkept,
    fun key entry hentry => ?_⟩
  · rw [Std.compare_eq_iff_eq, forall₂_eq_eq_eq]
  obtain ⟨hrows, drifted, hdrifted, hcard⟩ := hexact key entry hentry
  have hmem : ∀ row, row ∈ drifted ↔ ∃ s, g'.nodeAt row = some s ∧ Drifts s key.1 entry := by
    intro row
    rw [hdrifted, keying_eq_drifted]
    simp only [payloadValues_eq_some, Drifts]
    grind
  refine ⟨fun k row => ?_, ⟨drifted, hmem, hcard⟩,
    (compositePropertyIndexes_iff.2 hexact key entry hentry).1, fun row s hs hd => ?_⟩
  · refine (hrows k row).trans ?_
    rw [keying_eq_keyed]
    simp only [payloadValues_eq_some, compositeKeyFromValues_ok, FiledUnder]
    grind
  · exact lt_of_lt_of_eq (Finset.card_pos.2 ⟨row, (hmem row).2 ⟨s, hs, hd⟩⟩) hcard.symm

end Selene.Graph
