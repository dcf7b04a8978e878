import Mathlib.Algebra.BigOperators.Group.List.Basic
import Mathlib.Algebra.GroupWithZero.Nat
import Mathlib.Data.List.Sort

/-!
# Buckets in one array

Items with a bucket number are laid out bucket by bucket in one array: the buckets are counted, the
counts summed to offsets, and every item is written at the cursor of its bucket. Sums saturate at a
limit; a write outside the array is no result.

* `bucketed_eq`: what comes out is the concatenation of the buckets.
* `slice_flatten`: between two offsets stands one bucket.
-/

namespace Buckets

open List

variable {α : Type}

variable {cs : List ℕ} {d limit n total : ℕ}

/-- The items of one bucket, in their order. -/
def bucket (items : List (ℕ × α)) (d : ℕ) : List α :=
  (items.filter fun item => item.1 = d).map Prod.snd

/-- How many items every bucket has; the slot after the last one stays empty. -/
def counts (n : ℕ) (items : List (ℕ × α)) : List ℕ :=
  (List.range (n + 1)).map fun d => items.countP fun item => item.1 = d

/-- The sums before every slot, and the sum of all. -/
def prefixSums (limit : ℕ) : ℕ → List ℕ → List ℕ × ℕ
  | total, [] => ([], total)
  | total, c :: cs =>
    let (sums, last) := prefixSums limit (min limit (total + c)) cs
    (total :: sums, last)

/-- One item at the cursor of its bucket. -/
def place (s : List α × (ℕ → ℕ)) (item : ℕ × α) : Option (List α × (ℕ → ℕ)) :=
  let position := s.2 item.1
  if position < s.1.length then
    some (s.1.set position item.2, Function.update s.2 item.1 (position + 1))
  else none

def fill (blank : α) (offsets : List ℕ) (total : ℕ) (items : List (ℕ × α)) : Option (List α) :=
  (items.foldlM place (List.replicate total blank, fun d => offsets.getD d 0)).map Prod.fst

/-- The offsets and the array. -/
def bucketed (limit n : ℕ) (blank : α) (items : List (ℕ × α)) : Option (List ℕ × List α) :=
  let (offsets, total) := prefixSums limit 0 (counts n items)
  (fill blank offsets total items).map fun array => (offsets, array)

/-- The array between two neighbouring offsets. -/
def slice (offsets : List ℕ) (array : List α) (d : ℕ) : List α :=
  (array.take (offsets.getD (d + 1) 0)).drop (offsets.getD d 0)

/-- One bucket sorted in its place. -/
def sortSlice (r : α → α → Prop) [DecidableRel r] (offsets : List ℕ) (array : List α) (d : ℕ) :
    List α :=
  array.take (offsets.getD d 0) ++ (slice offsets array d).insertionSort r ++
    array.drop (offsets.getD (d + 1) 0)

def sortSlices (r : α → α → Prop) [DecidableRel r] (n : ℕ) (offsets : List ℕ) (array : List α) :
    List α :=
  (List.range n).foldl (sortSlice r offsets) array

/-! ## Concatenations -/

/-- The offsets of the parts of a concatenation. -/
def offsetsOf (parts : List (List α)) : List ℕ :=
  (List.range (parts.length + 1)).map fun d => ((parts.take d).flatten).length

theorem offsetsOf_getD {parts : List (List α)} (h : d ≤ parts.length) :
    (offsetsOf parts).getD d 0 = ((parts.take d).flatten).length := by
  rw [offsetsOf, getD_eq_getElem?_getD, getElem?_map, getElem?_range (by omega)]
  rfl

section

variable {parts : List (List α)} {part : List α}

section

variable (h : parts[d]? = some part)
include h

theorem flatten_split :
    parts.flatten = (parts.take d).flatten ++ part ++ (parts.drop (d + 1)).flatten := by
  obtain ⟨hlt, rfl⟩ := List.getElem?_eq_some_iff.1 h
  conv_lhs => rw [← List.take_append_drop d parts, List.drop_eq_getElem_cons hlt]
  rw [List.flatten_append, flatten_cons, append_assoc]

theorem length_take_succ :
    ((parts.take (d + 1)).flatten).length = ((parts.take d).flatten).length + part.length := by
  obtain ⟨hlt, rfl⟩ := List.getElem?_eq_some_iff.1 h
  rw [List.take_succ_eq_append_getElem hlt, List.flatten_append, List.length_append]
  simp

theorem slice_flatten :
    slice (offsetsOf parts) parts.flatten d = part := by
  have hlt : d < parts.length := (List.getElem?_eq_some_iff.1 h).1
  rw [slice, offsetsOf_getD (by omega), offsetsOf_getD (by omega), length_take_succ h,
    flatten_split h, take_left' List.length_append, drop_left' rfl]

end

end

theorem sortSlice_flatten {r : α → α → Prop} [DecidableRel r] {parts : List (List α)}
    {part : List α} (h : parts[d]? = some part) :
    sortSlice r (offsetsOf parts) parts.flatten d = (parts.set d (part.insertionSort r)).flatten := by
  have hlt : d < parts.length := (List.getElem?_eq_some_iff.1 h).1
  have hset : (parts.set d (part.insertionSort r))[d]? = some (part.insertionSort r) := by
    rw [getElem?_set_self hlt]
  rw [sortSlice, slice_flatten h, offsetsOf_getD (by omega), offsetsOf_getD (by omega),
    length_take_succ h, flatten_split hset, take_set_of_le (le_refl d),
    drop_set_of_lt (by omega)]
  congr 1
  · congr 1
    rw [flatten_split h, append_assoc, take_left']
    rfl
  · rw [flatten_split h, drop_left']
    rw [List.length_append]

theorem offsetsOf_congr {parts parts' : List (List α)}
    (h : parts.map List.length = parts'.map List.length) : offsetsOf parts = offsetsOf parts' := by
  have hlen : parts.length = parts'.length := by
    rw [← List.length_map (f := List.length), h, List.length_map]
  have htake : ∀ d, ((parts.take d).flatten).length = ((parts'.take d).flatten).length := by
    intro d
    rw [length_flatten, length_flatten, map_take, map_take, h]
  simp only [offsetsOf, hlen, htake]

theorem sortSlices_flatten {r : α → α → Prop} [DecidableRel r] (parts : List (List α)) :
    sortSlices r parts.length (offsetsOf parts) parts.flatten =
      (parts.map fun part => part.insertionSort r).flatten := by
  -- after `k` slices the first `k` parts are sorted
  have hrun : ∀ k, k ≤ parts.length →
      (List.range k).foldl (sortSlice r (offsetsOf parts)) parts.flatten =
        ((parts.take k).map (fun part => part.insertionSort r) ++ parts.drop k).flatten := by
    intro k
    induction k with
    | zero => intro _; rfl
    | succ k ih =>
      intro hk
      rw [range_succ, foldl_append, ih (by omega)]
      set sorted := (parts.take k).map (fun part => part.insertionSort r) ++ parts.drop k with hsorted
      have hlen : ((parts.take k).map fun part => part.insertionSort r).length = k := by
        rw [List.length_map, length_take, min_eq_left (by omega)]
      have hk' : parts[k]? = some parts[k] := getElem?_eq_getElem hk
      have hat : sorted[k]? = some parts[k] := by
        rw [hsorted, getElem?_append_right (by omega), hlen, Nat.sub_self, getElem?_drop,
          Nat.add_zero, hk']
      have hoff : offsetsOf parts = offsetsOf sorted := by
        refine offsetsOf_congr ?_
        rw [hsorted, map_append, map_map]
        conv_lhs => rw [← List.take_append_drop k parts, map_append]
        congr 1
        exact map_congr_left fun part _ => (length_insertionSort r part).symm
      rw [foldl_cons, foldl_nil, hoff, sortSlice_flatten hat]
      congr 1
      rw [hsorted, set_append_right _ _ (by omega), hlen, Nat.sub_self,
        List.drop_eq_getElem_cons hk, set_cons_zero, List.take_succ_eq_append_getElem hk,
        map_append, append_assoc]
      rfl
  have := hrun parts.length le_rfl
  rwa [take_length, drop_length, append_nil] at this

/-! ## Filling the array -/

/-- All buckets, in order. -/
def parts (n : ℕ) (items : List (ℕ × α)) : List (List α) := (List.range n).map (bucket items)

theorem length_bucket (items : List (ℕ × α)) (d : ℕ) :
    (bucket items d).length = items.countP fun item => item.1 = d := by
  rw [bucket, List.length_map, countP_eq_length_filter]

theorem bucket_append (items items' : List (ℕ × α)) (d : ℕ) :
    bucket (items ++ items') d = bucket items d ++ bucket items' d := by
  rw [bucket, filter_append, map_append]
  rfl

theorem parts_getElem? (items : List (ℕ × α)) (h : d < n) :
    (parts n items)[d]? = some (bucket items d) := by
  rw [parts, getElem?_map, getElem?_range h]
  rfl

theorem length_parts (n : ℕ) (items : List (ℕ × α)) : (parts n items).length = n := by
  rw [parts, List.length_map, List.length_range]

theorem length_flatten_take (items : List (ℕ × α)) (h : d ≤ n) :
    (((parts n items).take d).flatten).length =
      ((List.range d).map fun b => items.countP fun item => item.1 = b).sum := by
  rw [parts, ← map_take, take_range, min_eq_left h, length_flatten, map_map]
  congr 1
  exact map_congr_left fun b _ => length_bucket items b

theorem prefixSums_exact (h : total + cs.sum ≤ limit) : prefixSums limit total cs =
      ((List.range cs.length).map fun d => total + (cs.take d).sum, total + cs.sum) := by
  induction cs generalizing total with
  | nil => rfl
  | cons c cs ih =>
    rw [sum_cons] at h ⊢
    have htotal : min limit (total + c) = total + c := min_eq_right (by omega)
    rw [prefixSums, htotal, ih (by omega), length_cons, range_succ_eq_map, map_cons, map_map]
    refine Prod.ext ?_ (by dsimp only; omega)
    refine congrArg₂ List.cons (by simp) (map_congr_left fun d _ => ?_)
    simp only [Function.comp_apply, take_succ_cons, sum_cons]
    omega

theorem prefixSums_le (h : total ≤ limit) : (prefixSums limit total cs).2 ≤ limit := by
  induction cs generalizing total with
  | nil => exact h
  | cons c cs ih => exact ih (min_le_left _ _)

theorem sum_le_of_room (htotal : total ≤ limit)
    (h : ∀ d c, cs[d]? = some c → 0 < c → (prefixSums limit total cs).1.getD d 0 + c ≤ limit) :
    total + cs.sum ≤ limit := by
  induction cs generalizing total with
  | nil => simpa using htotal
  | cons c cs ih =>
    have hc : total + c ≤ limit := by
      rcases Nat.eq_zero_or_pos c with rfl | hpos
      · exact htotal
      · exact h 0 c rfl hpos
    rw [sum_cons, ← Nat.add_assoc]
    refine ih hc fun d c' hc' hpos => ?_
    have := h (d + 1) c' hc' hpos
    rw [prefixSums, min_eq_right hc] at this
    exact this

theorem fold_room {items : List (ℕ × α)} {s s' : List α × (ℕ → ℕ)}
    (h : items.foldlM place s = some s') (hd : 0 < items.countP fun item => item.1 = d) :
    s.2 d + (items.countP fun item => item.1 = d) ≤ s.1.length := by
  induction items generalizing s with
  | nil => simp at hd
  | cons item items ih =>
    rw [foldlM_cons] at h
    obtain ⟨s1, hplace, hrest⟩ := Option.bind_eq_some_iff.1 h
    unfold place at hplace
    dsimp only at hplace
    split at hplace
    · next hlt =>
      obtain rfl := Option.some.inj hplace
      rw [countP_cons] at hd ⊢
      by_cases hitem : item.1 = d
      · subst hitem
        rcases Nat.eq_zero_or_pos (items.countP fun i => i.1 = item.1) with hzero | hpos
        · simp only [hzero, decide_true, if_true]
          omega
        · have := ih hrest hpos
          simp only [Function.update_self, length_set] at this
          simp only [decide_true, if_true]
          omega
      · simp only [hitem, decide_false, Bool.false_eq_true, if_false, Nat.add_zero] at hd ⊢
        have := ih hrest hd
        simp only [Function.update_of_ne (Ne.symm hitem), length_set] at this
        exact this
    · cases hplace

theorem counts_sum {items : List (ℕ × α)} (hn : ∀ item ∈ items, item.1 < n) :
    counts n items = (List.range n).map (fun b => items.countP fun item => item.1 = b) ++ [0] := by
  rw [counts, range_succ, map_append, map_singleton, countP_eq_zero.2]
  intro item hitem
  have := hn item hitem
  simp only [decide_eq_true_eq]
  omega

theorem flatten_set {parts : List (List α)} {k : ℕ} {part : List α} {x : α}
    (h : parts[d]? = some part) (hk : k < part.length) :
    parts.flatten.set (((parts.take d).flatten).length + k) x =
      (parts.set d (part.set k x)).flatten := by
  have hlt : d < parts.length := (List.getElem?_eq_some_iff.1 h).1
  have hset : (parts.set d (part.set k x))[d]? = some (part.set k x) := by
    rw [getElem?_set_self hlt]
  rw [flatten_split h, flatten_split hset, take_set_of_le (le_refl d),
    drop_set_of_lt (by omega), set_append_left _ _ (by rw [List.length_append]; omega),
    set_append_right _ _ (by omega), Nat.add_sub_cancel_left]

/-- **The fill**, from a state where every bucket has its first items and blanks for the rest. -/
theorem fold_place (blank : α) {rest : List (ℕ × α)} :
    ∀ (done : List (ℕ × α)) (filled : List (List α)) {cursor : ℕ → ℕ} {s' : List α × (ℕ → ℕ)},
      (∀ item ∈ rest, item.1 < n) → filled.length = n →
      (∀ d, d < n → filled[d]? =
        some (bucket done d ++ List.replicate (rest.countP fun item => item.1 = d) blank)) →
      (∀ d, d < n → cursor d = ((filled.take d).flatten).length + (bucket done d).length) →
      rest.foldlM place (filled.flatten, cursor) = some s' →
      s'.1 = (parts n (done ++ rest)).flatten := by
  induction rest with
  | nil =>
    intro done filled cursor s' _ hlen hfilled _ h
    obtain rfl := Option.some.inj h
    rw [append_nil]
    refine congrArg List.flatten (ext_getElem? fun d => ?_)
    by_cases hd : d < n
    · rw [hfilled d hd, parts_getElem? done hd]
      simp
    · rw [getElem?_eq_none (by omega), getElem?_eq_none (by rw [length_parts]; omega)]
  | cons item rest ih =>
    intro done filled cursor s' hn hlen hfilled hcursor h
    rw [foldlM_cons] at h
    obtain ⟨s1, hplace, hrest⟩ := Option.bind_eq_some_iff.1 h
    unfold place at hplace
    dsimp only at hplace
    split at hplace
    · next hlt =>
      obtain rfl := Option.some.inj hplace
      obtain ⟨b, x⟩ := item
      have hb : b < n := hn _ mem_cons_self
      have hat := hfilled b hb
      rw [countP_cons] at hat
      simp only [decide_true, if_true] at hat
      -- the first blank of the bucket takes the item
      have hset : (bucket done b ++ List.replicate ((rest.countP fun i => i.1 = b) + 1) blank).set
          (bucket done b).length x =
          bucket (done ++ [(b, x)]) b ++ List.replicate (rest.countP fun i => i.1 = b) blank := by
        rw [set_append_right _ _ le_rfl, Nat.sub_self, replicate_succ, set_cons_zero, bucket_append]
        simp [bucket]
      have hother : ∀ d, d ≠ b → bucket (done ++ [(b, x)]) d = bucket done d := by
        intro d hd
        rw [bucket_append]
        simp [bucket, Ne.symm hd]
      rw [hcursor b hb, flatten_set hat (by simp), hset] at hrest
      rw [show done ++ (b, x) :: rest = done ++ [(b, x)] ++ rest by simp]
      refine ih _ _ (fun i hi => hn i (mem_cons_of_mem _ hi)) (by rw [length_set, hlen])
        (fun d hd => ?_) (fun d hd => ?_) hrest
      · by_cases hdb : d = b
        · subst hdb
          rw [getElem?_set_self (by omega)]
        · rw [getElem?_set_ne (Ne.symm hdb), hfilled d hd, hother d hdb, countP_cons]
          simp [Ne.symm hdb]
      · -- lengths of the buckets do not change
        have hlens : ((filled.set b (bucket (done ++ [(b, x)]) b ++
            List.replicate (rest.countP fun i => i.1 = b) blank)).map List.length) =
            filled.map List.length := by
          refine ext_getElem? fun e => ?_
          rw [getElem?_map, getElem?_map]
          by_cases heb : e = b
          · subst heb
            rw [getElem?_set_self (by omega), hat]
            simp [bucket]
          · rw [getElem?_set_ne (Ne.symm heb)]
        have htake : (((filled.set b (bucket (done ++ [(b, x)]) b ++
            List.replicate (rest.countP fun i => i.1 = b) blank)).take d).flatten).length =
            ((filled.take d).flatten).length := by
          rw [length_flatten, length_flatten, map_take, map_take, hlens]
        rw [htake]
        by_cases hdb : d = b
        · subst hdb
          rw [Function.update_self, bucket_append, List.length_append]
          simp [bucket]
          omega
        · rw [Function.update_of_ne hdb, hcursor d hd, hother d hdb]
    · cases hplace

/-- **The array** is the concatenation of the buckets, and the offsets are theirs. -/
theorem bucketed_eq {blank : α} {items : List (ℕ × α)} {offsets : List ℕ}
    {array : List α} (hn : ∀ item ∈ items, item.1 < n)
    (h : bucketed limit n blank items = some (offsets, array)) :
    offsets = offsetsOf (parts n items) ∧ array = (parts n items).flatten := by
  obtain ⟨array', hfill, heq⟩ := Option.map_eq_some_iff.1 h
  obtain ⟨rfl, rfl⟩ := Prod.mk.inj heq
  obtain ⟨s', hfold, rfl⟩ := Option.map_eq_some_iff.1 hfill
  have hroom : 0 + (counts n items).sum ≤ limit := by
    refine sum_le_of_room (Nat.zero_le _) fun d c hc hpos => ?_
    have hd : d < n + 1 := by
      have := (List.getElem?_eq_some_iff.1 hc).1
      rwa [counts, List.length_map, List.length_range] at this
    rw [counts, getElem?_map, getElem?_range hd] at hc
    obtain rfl := Option.some.inj hc
    have := fold_room hfold hpos
    rw [length_replicate] at this
    exact this.trans (prefixSums_le (Nat.zero_le _))
  have hsum : (counts n items).sum = ((parts n items).flatten).length := by
    have := length_flatten_take items (le_refl n)
    rw [take_of_length_le (by rw [length_parts])] at this
    rw [this, counts_sum hn, sum_append]
    simp
  have hoffsets : (prefixSums limit 0 (counts n items)).1 = offsetsOf (parts n items) := by
    rw [prefixSums_exact hroom, offsetsOf, length_parts]
    have hlen : (counts n items).length = n + 1 := by
      rw [counts, List.length_map, List.length_range]
    rw [hlen]
    refine map_congr_left fun d hd => ?_
    have hd' : d ≤ n := by
      have := mem_range.1 hd
      omega
    rw [length_flatten_take items hd', Nat.zero_add, counts, ← map_take, take_range,
      min_eq_left (by omega)]
  refine ⟨hoffsets, ?_⟩
  -- at the start every bucket is blank
  have htotal : (prefixSums limit 0 (counts n items)).2 = ((parts n items).flatten).length := by
    rw [prefixSums_exact hroom, Nat.zero_add, hsum]
  set blanks := (List.range n).map fun d =>
    List.replicate (items.countP fun item => item.1 = d) blank with hblanks
  have hlens : blanks.map List.length = (parts n items).map List.length := by
    rw [hblanks, parts, map_map, map_map]
    refine map_congr_left fun d _ => ?_
    simp [length_bucket]
  have hstart : List.replicate (prefixSums limit 0 (counts n items)).2 blank = blanks.flatten := by
    rw [htotal, length_flatten, ← hlens, ← length_flatten]
    refine (eq_replicate_of_mem fun x hx => ?_).symm
    obtain ⟨l, hl, hxl⟩ := mem_flatten.1 hx
    obtain ⟨d, -, rfl⟩ := mem_map.1 hl
    exact eq_of_mem_replicate hxl
  rw [hstart] at hfold
  refine fold_place blank [] blanks hn (by simp [hblanks]) (fun d hd => ?_)
    (fun d hd => ?_) hfold
  · rw [hblanks, getElem?_map, getElem?_range hd]
    rfl
  · rw [hoffsets, offsetsOf_getD (by rw [length_parts]; omega), length_flatten,
      length_flatten, map_take, map_take, hlens]
    rfl

end Buckets
