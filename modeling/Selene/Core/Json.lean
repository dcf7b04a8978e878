import Mathlib.Data.String.Basic

/-!
# JSON documents

`json_value.rs`: a document is the tree that `serde_json` holds, with its objects in key order.
Numbers, and the parser and printer of the text, belong to `serde_json`. What the engine adds is
the visitor that builds a document from what the parser reads (`Json.strict`): it checks the caps,
refuses a repeated key, and takes an object whose first key is `numberToken` for a number.
-/

namespace Selene.Core

/-- `MAX_DB_STRING_BYTES`, and the largest container. -/
def maxStringBytes : ℕ := 2 ^ 32 - 1

inductive Json (ν : Type) where
  | null
  | bool (b : Bool)
  | number (n : ν)
  | string (s : String)
  | array (items : List (Json ν))
  | object (fields : List (String × Json ν))

/-- `SERDE_JSON_ARBITRARY_PRECISION_NUMBER_TOKEN`. -/
def numberToken : String := "$serde_json::private::Number"

namespace Json

variable {ν : Type}

/-! ## Documents in memory -/

mutual

/-- `validate_json_value`. -/
def validate : Json ν → Bool
  | .string s => s.utf8ByteSize ≤ maxStringBytes
  | .array items => items.length ≤ maxStringBytes && validateList items
  | .object fields => fields.length ≤ maxStringBytes && validateFields fields
  | _ => true

def validateList : List (Json ν) → Bool
  | [] => true
  | j :: js => validate j && validateList js

def validateFields : List (String × Json ν) → Bool
  | [] => true
  | (key, j) :: fields => key.utf8ByteSize ≤ maxStringBytes && validate j && validateFields fields

end

mutual

/-- The keys of every object are in order and distinct, as `serde_json`'s map keeps them. -/
def Ordered : Json ν → Prop
  | .array items => OrderedList items
  | .object fields => (fields.map Prod.fst).Pairwise (· < ·) ∧ OrderedFields fields
  | _ => True

def OrderedList : List (Json ν) → Prop
  | [] => True
  | j :: js => Ordered j ∧ OrderedList js

def OrderedFields : List (String × Json ν) → Prop
  | [] => True
  | (_, j) :: fields => Ordered j ∧ OrderedFields fields

end

/-! ## The visitor -/

/-- Insertion into the ordered map. -/
def insertField (key : String) (j : Json ν) : List (String × Json ν) → List (String × Json ν)
  | [] => [(key, j)]
  | (k, v) :: fields => if key < k then (key, j) :: (k, v) :: fields else (k, v) :: insertField key j fields

/-- A number that the parser hands over as an object with one member. -/
def tokenNumber (parseNumber : String → Option ν) (lexeme : Json ν) (more : List (String × Json ν)) :
    Option (Json ν) :=
  match lexeme, more with
  | .string s, [] => (parseNumber s).map .number
  | _, _ => none

mutual

/-- `StrictJsonValueVisitor`, over what the parser reads, an object's members in text order. -/
def strict (parseNumber : String → Option ν) : Json ν → Option (Json ν)
  | .null => some .null
  | .bool b => some (.bool b)
  | .number n => some (.number n)
  | .string s => if maxStringBytes < s.utf8ByteSize then none else some (.string s)
  | .array items =>
    match strictList parseNumber items with
    | none => none
    | some values => if maxStringBytes < values.length then none else some (.array values)
  | .object [] => some (.object [])
  | .object ((key, j) :: fields) =>
    if key = numberToken then tokenNumber parseNumber j fields
    else
      match strictFields parseNumber [] ((key, j) :: fields) with
      | none => none
      | some values => if maxStringBytes < values.length then none else some (.object values)

def strictList (parseNumber : String → Option ν) : List (Json ν) → Option (List (Json ν))
  | [] => some []
  | j :: js =>
    match strict parseNumber j, strictList parseNumber js with
    | some value, some values => some (value :: values)
    | _, _ => none

/-- `values` is the map built so far. -/
def strictFields (parseNumber : String → Option ν) (values : List (String × Json ν)) :
    List (String × Json ν) → Option (List (String × Json ν))
  | [] => some values
  | (key, j) :: fields =>
    if maxStringBytes < key.utf8ByteSize then none
    else if key ∈ values.map Prod.fst then none
    else
      match strict parseNumber j with
      | none => none
      | some value => strictFields parseNumber (insertField key value values) fields

end

/-! ## What the visitor builds -/

theorem orderedFields_iff {fields : List (String × Json ν)} :
    OrderedFields fields ↔ ∀ f ∈ fields, Ordered f.2 := by
  induction fields with
  | nil => simp [OrderedFields]
  | cons f fs ih => simp [OrderedFields, ih]

theorem validateFields_iff {fields : List (String × Json ν)} : validateFields fields = true ↔
    ∀ f ∈ fields, f.1.utf8ByteSize ≤ maxStringBytes ∧ validate f.2 = true := by
  induction fields with
  | nil => simp [validateFields]
  | cons f fs ih => simp [validateFields, ih]

variable {key : String} {j : Json ν} {fields : List (String × Json ν)}

theorem mem_insertField {f : String × Json ν} :
    f ∈ insertField key j fields ↔ f = (key, j) ∨ f ∈ fields := by
  induction fields with
  | nil => simp [insertField]
  | cons g gs ih =>
    unfold insertField
    split
    · simp
    · simp only [List.mem_cons, ih]
      tauto

theorem insertField_sorted (h : (fields.map Prod.fst).Pairwise (· < ·))
    (hkey : key ∉ fields.map Prod.fst) :
    ((insertField key j fields).map Prod.fst).Pairwise (· < ·) := by
  induction fields with
  | nil => simp [insertField]
  | cons g gs ih =>
    rw [List.map_cons, List.pairwise_cons] at h
    rw [List.map_cons, List.mem_cons, not_or] at hkey
    unfold insertField
    split
    · rename_i hlt
      simp only [List.map_cons, List.pairwise_cons, List.mem_cons]
      refine ⟨?_, h⟩
      intro k hk
      rcases hk with rfl | hk
      · exact hlt
      · exact hlt.trans (h.1 k hk)
    · rename_i hle
      have hgk : g.1 < key := lt_of_le_of_ne (not_lt.1 hle) (Ne.symm hkey.1)
      simp only [List.map_cons, List.pairwise_cons]
      refine ⟨?_, ih h.2 hkey.2⟩
      intro k hk
      obtain ⟨f, hf, rfl⟩ := List.mem_map.1 hk
      rcases mem_insertField.1 hf with rfl | hf
      · exact hgk
      · exact h.1 _ (List.mem_map_of_mem hf)

theorem insertField_last (h : ∀ k ∈ fields.map Prod.fst, k < key) :
    insertField key j fields = fields ++ [(key, j)] := by
  induction fields with
  | nil => rfl
  | cons g gs ih =>
    have hg : g.1 < key := h g.1 List.mem_cons_self
    rw [insertField, if_neg (not_lt.2 hg.le), ih fun k hk => h k (List.mem_cons_of_mem _ hk)]
    rfl

/-- A map the visitor can hold. -/
def Built (values : List (String × Json ν)) : Prop :=
  (values.map Prod.fst).Pairwise (· < ·) ∧ OrderedFields values ∧ validateFields values = true

theorem Built.insert {values : List (String × Json ν)} (h : Built values)
    (hkey : key ∉ values.map Prod.fst) (hlen : key.utf8ByteSize ≤ maxStringBytes)
    (hj : j.Ordered) (hv : j.validate = true) : Built (insertField key j values) := by
  obtain ⟨hsorted, hordered, hvalid⟩ := h
  rw [orderedFields_iff] at hordered
  rw [validateFields_iff] at hvalid
  refine ⟨insertField_sorted hsorted hkey, orderedFields_iff.2 ?_, validateFields_iff.2 ?_⟩
  · intro f hf
    rcases mem_insertField.1 hf with rfl | hf
    · exact hj
    · exact hordered f hf
  · intro f hf
    rcases mem_insertField.1 hf with rfl | hf
    · exact ⟨hlen, hv⟩
    · exact hvalid f hf

theorem built_nil : Built ([] : List (String × Json ν)) := ⟨List.Pairwise.nil, trivial, rfl⟩

variable {parseNumber : String → Option ν}

mutual

theorem strict_admitted : ∀ {raw doc : Json ν}, strict parseNumber raw = some doc →
    doc.Ordered ∧ doc.validate = true
  | .null, doc, h => by cases h; exact ⟨trivial, rfl⟩
  | .bool b, doc, h => by cases h; exact ⟨trivial, rfl⟩
  | .number n, doc, h => by cases h; exact ⟨trivial, rfl⟩
  | .string s, doc, h => by
    rw [strict] at h
    split at h
    · cases h
    rename_i hlen
    cases h
    exact ⟨trivial, by simpa [validate] using hlen⟩
  | .array items, doc, h => by
    rw [strict] at h
    split at h
    · cases h
    rename_i values hvalues
    split at h
    · cases h
    rename_i hlen
    cases h
    obtain ⟨hordered, hvalid⟩ := strictList_admitted hvalues
    refine ⟨hordered, ?_⟩
    simp only [validate, hvalid, Bool.and_true, decide_eq_true_eq]
    omega
  | .object [], doc, h => by cases h; exact ⟨⟨List.Pairwise.nil, trivial⟩, rfl⟩
  | .object ((key, j) :: fields), doc, h => by
    rw [strict] at h
    split at h
    · unfold tokenNumber at h
      split at h
      · obtain ⟨n, -, rfl⟩ := Option.map_eq_some_iff.1 h
        exact ⟨trivial, rfl⟩
      · cases h
    · split at h
      · cases h
      rename_i values hvalues
      split at h
      · cases h
      rename_i hlen
      cases h
      obtain ⟨hsorted, hordered, hvalid⟩ := strictFields_admitted hvalues built_nil
      refine ⟨⟨hsorted, hordered⟩, ?_⟩
      simp only [validate, hvalid, Bool.and_true, decide_eq_true_eq]
      omega

theorem strictList_admitted : ∀ {raw docs : List (Json ν)}, strictList parseNumber raw = some docs →
    OrderedList docs ∧ validateList docs = true
  | [], docs, h => by cases h; exact ⟨trivial, rfl⟩
  | j :: js, docs, h => by
    rw [strictList] at h
    split at h
    · rename_i value values hvalue hvalues
      cases h
      obtain ⟨ho, hv⟩ := strict_admitted hvalue
      obtain ⟨hos, hvs⟩ := strictList_admitted hvalues
      exact ⟨⟨ho, hos⟩, by rw [validateList, hv, hvs]; rfl⟩
    · cases h

theorem strictFields_admitted : ∀ {raw values docs : List (String × Json ν)},
    strictFields parseNumber values raw = some docs → Built values → Built docs
  | [], values, docs, h, hb => by cases h; exact hb
  | (key, j) :: fields, values, docs, h, hb => by
    rw [strictFields] at h
    split at h
    · cases h
    rename_i hlen
    split at h
    · cases h
    rename_i hkey
    split at h
    · cases h
    rename_i value hvalue
    obtain ⟨ho, hv⟩ := strict_admitted hvalue
    exact strictFields_admitted h (hb.insert hkey (by omega) ho hv)

end

/-! ## Reading a document back -/

mutual

/-- No object starts with the number token. -/
def Readable : Json ν → Prop
  | .array items => ReadableList items
  | .object [] => True
  | .object ((key, j) :: fields) => key ≠ numberToken ∧ ReadableFields ((key, j) :: fields)
  | _ => True

def ReadableList : List (Json ν) → Prop
  | [] => True
  | j :: js => Readable j ∧ ReadableList js

def ReadableFields : List (String × Json ν) → Prop
  | [] => True
  | (_, j) :: fields => Readable j ∧ ReadableFields fields

end

theorem strictFields_append : ∀ {raw values docs : List (String × Json ν)},
    strictFields parseNumber values raw = some docs →
    ((values ++ raw).map Prod.fst).Pairwise (· < ·) → ∃ added, docs = values ++ added
  | [], values, docs, h, _ => by
    cases h
    exact ⟨[], (List.append_nil _).symm⟩
  | (key, j) :: fields, values, docs, h, hsorted => by
    rw [strictFields] at h
    split at h
    · cases h
    split at h
    · cases h
    split at h
    · cases h
    rename_i value _
    rw [insertField_last (sorted_front hsorted)] at h
    obtain ⟨added, rfl⟩ := strictFields_append h (by simpa using hsorted)
    exact ⟨(key, value) :: added, by simp⟩
where
  sorted_front {key : String} {j : Json ν} {values fields : List (String × Json ν)}
      (h : ((values ++ (key, j) :: fields).map Prod.fst).Pairwise (· < ·)) :
      ∀ k ∈ values.map Prod.fst, k < key := by
    rw [List.map_append, List.pairwise_append] at h
    intro k hk
    exact h.2.2 k hk key (by simp)

mutual

/-- **A document is read back exactly when none of its objects starts with the number token.** -/
theorem strict_eq_iff : ∀ {j : Json ν}, j.Ordered → j.validate = true →
    (strict parseNumber j = some j ↔ j.Readable)
  | .null, _, _ => iff_of_true rfl trivial
  | .bool _, _, _ => iff_of_true rfl trivial
  | .number _, _, _ => iff_of_true rfl trivial
  | .string s, _, hv => by
    have hlen : s.utf8ByteSize ≤ maxStringBytes := by simpa [validate] using hv
    refine iff_of_true ?_ trivial
    rw [strict, if_neg (by omega)]
  | .array items, ho, hv => by
    simp only [validate, Bool.and_eq_true, decide_eq_true_eq] at hv
    have ih : strictList parseNumber items = some items ↔ ReadableList items :=
      strictList_eq_iff ho hv.2
    rw [strict, Readable, ← ih]
    constructor
    · intro h
      split at h
      · cases h
      rename_i values hvalues
      split at h
      · cases h
      rw [hvalues]
      exact congrArg some (Json.array.inj (Option.some.inj h))
    · intro h
      rw [h]
      exact if_neg (by omega)
  | .object [], _, _ => iff_of_true rfl trivial
  | .object ((key, j) :: fields), ho, hv => by
    simp only [validate, Bool.and_eq_true, decide_eq_true_eq] at hv
    have ih : strictFields parseNumber [] ((key, j) :: fields) = some ([] ++ (key, j) :: fields) ↔
        ReadableFields ((key, j) :: fields) := strictFields_eq_iff ho.1 ho.2 hv.2
    rw [strict, Readable, ← ih]
    by_cases hkey : key = numberToken
    · rw [if_pos hkey]
      refine iff_of_false ?_ fun h => h.1 hkey
      unfold tokenNumber
      split
      · simp
      · simp
    · rw [if_neg hkey, and_iff_right hkey, List.nil_append]
      constructor
      · intro h
        split at h
        · cases h
        rename_i values hvalues
        split at h
        · cases h
        rw [hvalues]
        exact congrArg some (Json.object.inj (Option.some.inj h))
      · intro h
        rw [h]
        exact if_neg (by omega)

theorem strictList_eq_iff : ∀ {items : List (Json ν)}, OrderedList items →
    validateList items = true → (strictList parseNumber items = some items ↔ ReadableList items)
  | [], _, _ => iff_of_true rfl trivial
  | j :: js, ho, hv => by
    rw [validateList, Bool.and_eq_true] at hv
    have ih : strict parseNumber j = some j ↔ j.Readable := strict_eq_iff ho.1 hv.1
    have ihs : strictList parseNumber js = some js ↔ ReadableList js := strictList_eq_iff ho.2 hv.2
    rw [strictList, ReadableList, ← ih, ← ihs]
    constructor
    · intro h
      split at h
      · rename_i value values hvalue hvalues
        obtain ⟨rfl, rfl⟩ := List.cons.inj (Option.some.inj h)
        exact ⟨hvalue, hvalues⟩
      · cases h
    · intro h
      rw [h.1, h.2]

theorem strictFields_eq_iff : ∀ {values fields : List (String × Json ν)},
    ((values ++ fields).map Prod.fst).Pairwise (· < ·) → OrderedFields fields →
    validateFields fields = true →
    (strictFields parseNumber values fields = some (values ++ fields) ↔ ReadableFields fields)
  | values, [], _, _, _ => iff_of_true (by rw [List.append_nil, strictFields]) trivial
  | values, (key, j) :: fields, hsorted, ho, hv => by
    simp only [validateFields, Bool.and_eq_true, decide_eq_true_eq] at hv
    have hfront := strictFields_append.sorted_front hsorted
    have hnew : key ∉ values.map Prod.fst := fun h => lt_irrefl _ (hfront key h)
    have hsorted' : ((values ++ [(key, j)] ++ fields).map Prod.fst).Pairwise (· < ·) := by
      simpa using hsorted
    have ih : strict parseNumber j = some j ↔ j.Readable := strict_eq_iff ho.1 hv.1.2
    have ihs : strictFields parseNumber (values ++ [(key, j)]) fields =
        some (values ++ [(key, j)] ++ fields) ↔ ReadableFields fields :=
      strictFields_eq_iff hsorted' ho.2 hv.2
    rw [strictFields, ReadableFields, ← ih, ← ihs, if_neg (by omega), if_neg hnew,
      List.append_assoc, List.singleton_append]
    constructor
    · intro h
      split at h
      · cases h
      rename_i value hvalue
      rw [insertField_last hfront] at h
      -- the member just added stays where it is
      obtain ⟨added, hadded⟩ := strictFields_append h (by simpa using hsorted)
      obtain rfl : j = value := by
        rw [List.append_assoc, List.append_cancel_left_eq, List.singleton_append] at hadded
        exact congrArg Prod.snd (List.cons.inj hadded).1
      exact ⟨hvalue, h⟩
    · intro h
      rw [h.1]
      simp only [insertField_last hfront]
      exact h.2

end

end Json

/-- A document the engine holds. -/
structure JsonValue (ν : Type) where
  value : Json ν
  ordered : value.Ordered
  admitted : value.validate = true

end Selene.Core
