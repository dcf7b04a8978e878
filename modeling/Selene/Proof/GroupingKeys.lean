import Selene.Proof.ThreeValued

/-!
# Grouping keys

Equality of row keys is equality of the normal forms of their values (`eq_iff`), an equivalence. Equal
keys write the same pieces into a hasher, but for the signs of zeros inside JSON documents
(`hash_congr`): `0.0` and `-0.0` are equal numbers with different texts, and the hash takes the text.
-/

namespace Selene.Graph

open Value List Option HashToken NumericKey

/-- The text of a JSON document. -/
def HashToken.document : HashToken → Option String
  | .json s => some s
  | _ => none

namespace Value

theorem runtimeList_eq (values : List Value) :
    runtimeList values = values.flatMap runtimeTokens := by
  induction values with
  | nil => simp [runtimeList]
  | cons v values ih => simp [runtimeList, ih]

theorem runtimeFields_eq (fields : List (DbString × Value)) :
    runtimeFields fields = fields.map (Prod.map id runtimeTokens) := by
  induction fields with
  | nil => simp [runtimeFields]
  | cons field fields ih =>
    obtain ⟨name, v⟩ := field
    simp [runtimeFields, ih]

theorem sortByName_map {α β : Type} (f : α → β) (fields : List (DbString × α)) :
    sortByName (fields.map (Prod.map id f)) = (sortByName fields).map (Prod.map id f) := by
  rw [sortByName, sortByName, map_mergeSort]
  intro a _ b _
  rfl

/-- The pieces of a value without the signs of JSON zeros. -/
def unsignedTokens (v : Value) : List HashToken := v.runtimeTokens.map unsign

theorem runtimeTokens_number {v : Value} {key : NumericKey} (h : of v = some key) :
    v.runtimeTokens = [.tag "runtime-number", .number key] := by
  rw [runtimeTokens.eq_def]
  simp only [h]

theorem unsignedTokens_record (fields : List (DbString × Value)) :
    (record fields).unsignedTokens = .tag "Open" :: .nat fields.length ::
      (sortByName (fields.map (Prod.map id unsignedTokens))).flatMap
        fun field => .text field.1 :: field.2 := by
  have htokens : (record fields).runtimeTokens = .tag "Open" :: .nat fields.length ::
      (sortByName (runtimeFields fields)).flatMap fun field => .text field.1 :: field.2 := by
    simp [runtimeTokens, of]
  rw [unsignedTokens, htokens, runtimeFields_eq, sortByName_map, sortByName_map]
  simp only [map_cons, map_flatMap, flatMap_map, unsign]
  rfl

theorem unsignedTokens_list (values : List Value) :
    (list values).unsignedTokens = .tag "List" :: .nat values.length ::
      values.flatMap unsignedTokens := by
  have htokens : (list values).runtimeTokens = .tag "List" :: .nat values.length ::
      runtimeList values := by
    simp [runtimeTokens, of]
  rw [unsignedTokens, htokens, runtimeList_eq]
  simp only [map_cons, map_flatMap, unsign]
  rfl

theorem unsignedTokens_other {a b : Value} (ha : a.kind = .other) (h : eq a b = true) :
    a.unsignedTokens = b.unsignedTokens := by
  have hnot : ∀ {v : Value} {key : NumericKey}, of v = some key → v.kind ≠ .other := by
    intro v key hkey
    rw [kind_number.2 ⟨key, hkey⟩]
    decide
  have hstrict := strictTokens_congr h
  cases same_of_eq h with
  | refl => rfl
  | float x y _ | float32 x y _ | decimal x y _ => exact absurd ha (hnot rfl)
  | list x y _ | record x y _ => exact absurd ha (by simp)
  | _ => simpa [unsignedTokens, runtimeTokens, of] using hstrict

/-- **Values of one normal form write the same pieces**, but for the signs of JSON zeros. -/
theorem unsignedTokens_congr (a : Value) : ∀ b : Value, a.proper = true → b.proper = true →
    a.normal = b.normal → a.unsignedTokens = b.unsignedTokens := by
  induction a using induction_members with
  | step a ih =>
    intro b ha hb h
    have hkind : a.kind = b.kind := by rw [← kind_normal, h, kind_normal]
    cases viewPair hkind with
    | null => rfl
    | number _ _ k l hk hl =>
      rw [normal_number hk, normal_number hl, Normal.number.injEq] at h
      rw [unsignedTokens, unsignedTokens, runtimeTokens_number hk, runtimeTokens_number hl, h]
    | duration s t =>
      have hkey : s.orderKey = t.orderKey := by simpa [normal, of] using h
      simp [unsignedTokens, runtimeTokens, of, strictTokens, strictPayload, hkey, variantName]
    | path g g' s t x y =>
      -- the direction of a segment is neither in the normal form nor written
      obtain ⟨rfl, rfl, hsegments⟩ : g = g' ∧ s = t ∧
          (x.map fun p => (p.1, p.2.2)) = y.map fun p => (p.1, p.2.2) := by
        simpa [normal, of] using h
      have hlen : x.length = y.length := by simpa using congrArg List.length hsegments
      have hpieces : ∀ z : List (EdgeId × EdgeDirection × NodeId),
          (z.flatMap fun p => [nat p.1, nat p.2.2]) =
            (z.map fun p => (p.1, p.2.2)).flatMap fun p => [nat p.1, nat p.2] := by
        intro z
        rw [flatMap_map]
      simp only [unsignedTokens, runtimeTokens, of, strictTokens, strictPayload,
        variantName, hlen, hpieces, hsegments]
    | list x y =>
      have hitems : x.map normal = y.map normal := by
        simpa [normal, of, normalList_eq] using h
      have hlen : x.length = y.length := by simpa using congrArg List.length hitems
      have htokens : x.map unsignedTokens = y.map unsignedTokens := by
        refine map_eq_of_map_eq ?_ hitems
        exact fun v hv w hw => ih v hv w (proper_members ha hv) (proper_members hb hw)
      rw [unsignedTokens_list, unsignedTokens_list, hlen, flatMap_def, flatMap_def, htokens]
    | record x y =>
      have hx := nodup_of_proper ha
      have hy := nodup_of_proper hb
      have hfields : sortByName (x.map (Prod.map id normal)) = sortByName (y.map (Prod.map id normal)) := by
        simpa [normal, of, normalFields_eq] using h
      -- fields are written in name order: it is enough to compare them name by name
      rw [sortByName_eq_iff (by rwa [Assoc.map_fst_map]), Assoc.perm_iff_lookup normal hx hy] at hfields
      have htokens : sortByName (x.map (Prod.map id unsignedTokens)) =
          sortByName (y.map (Prod.map id unsignedTokens)) := by
        rw [sortByName_eq_iff (by rwa [Assoc.map_fst_map]), Assoc.perm_iff_lookup _ hx hy]
        refine ⟨hfields.1, fun p hp => ?_⟩
        obtain ⟨w, hw, hnormal⟩ := hfields.2 p hp
        have hpm : p.2 ∈ (record x).members := mem_map_of_mem hp
        have hwm : w ∈ (record y).members := mem_map.2 ⟨_, (Assoc.lookup_eq_some_iff hy).1 hw, rfl⟩
        exact ⟨w, hw, ih p.2 hpm w (proper_members ha hpm) (proper_members hb hwm) hnormal⟩
      rw [unsignedTokens_record, unsignedTokens_record, htokens, hfields.1]
    | other _ _ hoa hob =>
      rw [normal_other hoa, normal_other hob, Normal.other.injEq, Quotient.eq] at h
      rcases h with rfl | h
      · rfl
      · exact unsignedTokens_other hoa h

end Value

/-! ## JSON documents of a value -/

namespace Value

mutual

/-- The texts of the JSON documents inside a value: those of a record by the names of its fields, in
a typed record (`typed`) in the order of the fields. -/
def documents (typed : Bool) : Value → List String
  | json s => [s]
  | list values => documentsList typed values
  | record fields =>
    (if typed then documentsFields typed fields
      else sortByName (documentsFields typed fields)).flatMap Prod.snd
  | recordTyped _ values => documentsSlots values
  | _ => []

def documentsList (typed : Bool) : List Value → List String
  | [] => []
  | v :: values => documents typed v ++ documentsList typed values

def documentsFields (typed : Bool) : List (DbString × Value) → List (DbString × List String)
  | [] => []
  | (name, v) :: fields => (name, documents typed v) :: documentsFields typed fields

def documentsSlots : List (Option Value) → List String
  | [] => []
  | none :: values => documentsSlots values
  | some v :: values => documents true v ++ documentsSlots values

end

theorem document_hashFloat32 (bits : UInt32) : (hashFloat32 bits).document = none := by
  rw [hashFloat32]
  split_ifs <;> rfl

mutual

theorem strictPayload_documents (v : Value) :
    (strictPayload v).filterMap document = documents true v := by
  cases v with
  | list values => simp [strictPayload, documents, filterMap_cons, document, strictList_documents values]
  | record fields => simp [strictPayload, documents, filterMap_cons, document, strictFields_documents fields]
  | recordTyped type values =>
    simp [strictPayload, documents, filterMap_cons, document, strictSlots_documents values]
  | vector components =>
    rw [strictPayload, filterMap_cons_none rfl, filterMap_map]
    simp [documents, document_hashFloat32]
  | path graph start segments =>
    simp [strictPayload, documents, filterMap_cons, document, filterMap_flatMap]
  | float bits =>
    simp only [strictPayload, documents, hashFloat]
    split_ifs <;> rfl
  | float32 bits => simp [strictPayload, documents, document_hashFloat32]
  | _ => simp [strictPayload, documents, document]

theorem strictList_documents (values : List Value) :
    (strictList values).filterMap document = documentsList true values := by
  cases values with
  | nil => rfl
  | cons v values =>
    simp [strictList, documentsList, filterMap_cons, document, strictPayload_documents v,
      strictList_documents values]

theorem strictFields_documents (fields : List (DbString × Value)) :
    (strictFields fields).filterMap document = (documentsFields true fields).flatMap Prod.snd := by
  cases fields with
  | nil => rfl
  | cons field fields =>
    obtain ⟨name, v⟩ := field
    simp [strictFields, documentsFields, filterMap_cons, document, strictPayload_documents v,
      strictFields_documents fields]

theorem strictSlots_documents (values : List (Option Value)) :
    (strictSlots values).filterMap document = documentsSlots values := by
  cases values with
  | nil => rfl
  | cons slot values =>
    cases slot with
    | none => simp [strictSlots, documentsSlots, filterMap_cons, document, strictSlots_documents values]
    | some v =>
      simp [strictSlots, documentsSlots, filterMap_cons, document, strictPayload_documents v,
        strictSlots_documents values]

end

mutual

theorem runtimeTokens_documents (v : Value) :
    v.runtimeTokens.filterMap document = documents false v := by
  cases v with
  | list values => simp [runtimeTokens, of, documents, filterMap_cons, document, runtimeList_documents values]
  | record fields =>
    have hsort := sortByName_map (filterMap document) (runtimeFields fields)
    rw [runtimeFields_documents fields] at hsort
    simp [runtimeTokens, of, documents, filterMap_cons, document, hsort, filterMap_flatMap, flatMap_map]
  | recordTyped type values =>
    simpa [runtimeTokens, of, strictTokens, filterMap_cons, document, documents] using
      strictPayload_documents (recordTyped type values)
  | _ => simp [runtimeTokens, of, strictTokens, filterMap_cons, document, strictPayload_documents, documents]

theorem runtimeList_documents (values : List Value) :
    (runtimeList values).filterMap document = documentsList false values := by
  cases values with
  | nil => rfl
  | cons v values =>
    simp [runtimeList, documentsList, runtimeTokens_documents v, runtimeList_documents values]

theorem runtimeFields_documents (fields : List (DbString × Value)) :
    (runtimeFields fields).map (Prod.map id (filterMap document)) =
      documentsFields false fields := by
  cases fields with
  | nil => rfl
  | cons field fields =>
    obtain ⟨name, v⟩ := field
    simp [runtimeFields, documentsFields, runtimeTokens_documents v,
      runtimeFields_documents fields]

end

end Value

/-! ## Keys of rows -/

namespace HashToken

theorem unsign_eq_cases {a b : HashToken} (h : a.unsign = b.unsign) :
    a = b ∨ ∃ s t, a = .json s ∧ b = .json t := by
  cases a with
  | json s =>
    cases b with
    | json t => exact .inr ⟨s, t, rfl, rfl⟩
    | _ => cases h
  | _ =>
    cases b with
    | json t => cases h
    | _ => exact .inl h

theorem eq_of_unsign {x y : List HashToken} (h : x.map unsign = y.map unsign)
    (hdocuments : x.filterMap document = y.filterMap document) : x = y := by
  induction x generalizing y with
  | nil => exact (map_eq_nil_iff.1 h.symm).symm
  | cons a x ih =>
    cases y with
    | nil => simp at h
    | cons b y =>
      rw [map_cons, map_cons, List.cons.injEq] at h
      rcases unsign_eq_cases h.1 with rfl | ⟨s, t, rfl, rfl⟩
      · rw [filterMap_cons, filterMap_cons] at hdocuments
        cases hdoc : document a with
        | none | some s => rw [ih h.2 (by simpa [hdoc] using hdocuments)]
      · simp only [filterMap_cons, document, List.cons.injEq] at hdocuments
        rw [hdocuments.1, ih h.2 hdocuments.2]

end HashToken

namespace RuntimeEqKey

/-- The JSON documents of a key. -/
def documents (row : List Value) : List String := documentsList false row

theorem hash_documents (row : List Value) : (hash row).filterMap document = documents row := by
  rw [hash, filterMap_cons_none rfl, runtimeList_documents, documents]

section Rows

variable {a b : List Value} (ha : ∀ v ∈ a, v.proper = true) (hb : ∀ v ∈ b, v.proper = true)

include ha hb

/-- **Keys are equal exactly when the normal forms of their values are.** -/
theorem eq_iff : eq a b = true ↔ a.map normal = b.map normal := by
  have hmembers : ∀ v ∈ a, ∀ w ∈ b, keyEqual v w = true ↔ v.normal = w.normal :=
    fun v hv w hw => keyEqual_iff v w (ha v hv) (hb w hw)
  rw [eq, Bool.and_eq_true, beq_iff_eq]
  constructor
  · rintro ⟨hlen, h⟩
    exact map_eq_of_forall₂ (fun v hv w hw => (hmembers v hv w hw).1) ((equalList_iff hlen).1 h)
  · intro h
    have hlen : a.length = b.length := by simpa using congrArg List.length h
    refine ⟨hlen, (equalList_iff hlen).2 (forall₂_of_map_eq ?_ h)⟩
    exact fun v hv w hw => (hmembers v hv w hw).2

theorem hash_congr (h : eq a b = true) : (hash a).map unsign = (hash b).map unsign := by
  rw [eq_iff ha hb] at h
  have hlen : a.length = b.length := by simpa using congrArg List.length h
  have htokens : a.map unsignedTokens = b.map unsignedTokens := by
    refine map_eq_of_map_eq ?_ h
    exact fun v hv w hw => unsignedTokens_congr v w (ha v hv) (hb w hw)
  rw [hash, hash, map_cons, map_cons, runtimeList_eq, runtimeList_eq, map_flatMap,
    map_flatMap, hlen]
  congr 1
  rw [flatMap_def, flatMap_def]
  exact congrArg List.flatten htokens

/-- Equal keys have the same JSON documents, but for the signs of zeros. -/
theorem documents_congr (h : eq a b = true) :
    (documents a).map (unsignZeros false ·.toList) =
      (documents b).map (unsignZeros false ·.toList) := by
  have htexts : ∀ row, (documents row).map (unsignZeros false ·.toList) =
      ((hash row).map unsign).filterMap fun token => token.document.map String.toList := by
    intro row
    rw [← hash_documents, map_filterMap, filterMap_map]
    refine filterMap_congr fun token _ => ?_
    cases token <;> simp [document, unsign]
  rw [htexts, htexts, hash_congr ha hb h]

/-- Equal keys have the same hash exactly when their JSON documents have the same texts. -/
theorem hash_eq_iff (h : eq a b = true) : hash a = hash b ↔ documents a = documents b := by
  rw [← hash_documents, ← hash_documents]
  exact ⟨congrArg _, eq_of_unsign (hash_congr ha hb h)⟩

end Rows

/-- The values of a row. -/
def values (row : List RuntimeValue) : List Value := row.map Subtype.val

theorem proper_values (row : List RuntimeValue) : ∀ v ∈ values row, v.proper = true := by
  intro v hv
  obtain ⟨w, -, rfl⟩ := mem_map.1 hv
  exact w.2

/-- **Equality of keys is an equivalence.** Equal keys have the same JSON documents but for the signs of
zeros, and equal hashes exactly when these signs are the same too. -/
theorem keys_coherent (a b c : List RuntimeValue) :
    eq (values a) (values a) = true ∧
    (eq (values a) (values b) = true → eq (values b) (values a) = true) ∧
    (eq (values a) (values b) = true → eq (values b) (values c) = true →
      eq (values a) (values c) = true) ∧
    (eq (values a) (values b) = true →
      (documents (values a)).map (unsignZeros false ·.toList) =
        (documents (values b)).map (unsignZeros false ·.toList) ∧
      (hash (values a) = hash (values b) ↔ documents (values a) = documents (values b))) := by
  have ha := proper_values a
  have hb := proper_values b
  have hc := proper_values c
  refine ⟨?_, ?_, ?_, ?_⟩
  · rw [eq_iff ha ha]
  · rw [eq_iff ha hb, eq_iff hb ha]
    exact Eq.symm
  · rw [eq_iff ha hb, eq_iff hb hc, eq_iff ha hc]
    exact Eq.trans
  · exact fun h => ⟨documents_congr ha hb h, hash_eq_iff ha hb h⟩

/-- Two JSON zeros: equal, and hashed by texts that differ. -/
theorem zeros_hash_apart :
    eq [.json "0.0"] [.json "-0.0"] = true ∧ hash [.json "0.0"] ≠ hash [.json "-0.0"] := by
  have hsame : Value.eq (.json "0.0") (.json "-0.0") = true := by
    rw [Value.eq]
    decide
  refine ⟨?_, ?_⟩
  · simp [eq, equalList, valueKeyEqual, equalNonNull, of, hsame]
  · simp [hash, runtimeList, runtimeTokens, of, strictTokens, strictPayload]

/-- **Rows that `==` identifies value by value are equal keys**, and have one hash exactly when their
JSON documents have the same texts. -/
theorem strict_rows_group (a b : List RuntimeValue)
    (h : List.Forall₂ (fun v w => Value.eq v w = true) (values a) (values b)) :
    eq (values a) (values b) = true ∧
      (hash (values a) = hash (values b) ↔ documents (values a) = documents (values b)) := by
  have hkey := (eq_iff (proper_values a) (proper_values b)).2
    (map_eq_of_forall₂ (fun v _ w _ => normal_of_eq v w) h)
  exact ⟨hkey, hash_eq_iff (proper_values a) (proper_values b) hkey⟩

/-- The two zeros of the floats: one key and one hash. -/
theorem strict_rows_group_zeros : eq [.float 0] [.float 0x8000000000000000] = true ∧
    hash [.float 0] = hash [.float 0x8000000000000000] := by
  have h := strict_rows_group [⟨.float 0, rfl⟩] [⟨.float 0x8000000000000000, rfl⟩]
    (.cons (by rw [Value.eq]; decide) .nil)
  exact ⟨h.1, h.2.2 rfl⟩

end RuntimeEqKey

end Selene.Graph
