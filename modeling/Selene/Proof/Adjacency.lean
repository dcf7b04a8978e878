import Selene.Graph.Consistency

/-!
# Adjacency lists

The outgoing, incoming and undirected lists are three instances of one structure: an edge leaves
an entry at some nodes (its *ends*), and the list of a node holds the entries the live edges leave
there, in the order of their keys.

A deletion takes lists apart in several steps: the lists of a deleted node go first, then the
incident edges leave the lists of the other nodes, then their rows die. `Adjacency.Exact` describes
the lists in between: `gone` are nodes whose lists are dropped, `out` are edges that are live but
not listed any more.
-/

namespace Selene.Graph

open Function List Option EdgeSlot AdjacencyEntry

/-- What the entries of one direction have in common: an entry carries the id of its edge, and an
edge has at most one at a node. -/
structure IsEnds (ends : EdgeSlot → List (NodeId × AdjacencyEdge)) : Prop where
  edgeId : ∀ {e n a}, (n, a) ∈ ends e → a.edgeId = e.id
  nodup : ∀ e, ((ends e).map Prod.fst).Nodup

theorem IsEnds.unique {ends : EdgeSlot → List (NodeId × AdjacencyEdge)} (h : IsEnds ends)
    {e : EdgeSlot} {n : NodeId} {a b : AdjacencyEdge} (ha : (n, a) ∈ ends e) (hb : (n, b) ∈ ends e) :
    a = b :=
  (Prod.mk.inj (inj_on_of_nodup_map (h.nodup e) ha hb rfl)).2

theorem isEnds_out : IsEnds outEnds where
  edgeId {e n a} h := by
    unfold outEnds at h
    split at h <;> simp at h
    rw [h.2]
  nodup e := by
    unfold outEnds
    split <;> simp

theorem isEnds_in : IsEnds inEnds where
  edgeId {e n a} h := by
    unfold inEnds at h
    split at h <;> simp at h
    rw [h.2]
  nodup e := by
    unfold inEnds
    split <;> simp

theorem mem_undirectedEnds {e : EdgeSlot} {n : NodeId} {a : AdjacencyEdge} :
    (n, a) ∈ e.undirectedEnds ↔ e.directionality = .undirected ∧
      (n = e.source ∧ a = ⟨e.label, e.target, e.id⟩ ∨ n = e.target ∧ a = ⟨e.label, e.source, e.id⟩) := by
  unfold undirectedEnds
  split
  · next h => simp [h]
  · next h =>
    by_cases hl : e.source = e.target
    · simp [h, hl]
    · simp [h, hl]

theorem isEnds_undirected : IsEnds undirectedEnds where
  edgeId {e n a} h := by
    obtain ⟨-, ⟨-, rfl⟩ | ⟨-, rfl⟩⟩ := mem_undirectedEnds.1 h <;> rfl
  nodup e := by
    unfold undirectedEnds
    split
    · simp
    · by_cases hl : e.source = e.target <;> simp [hl]

/-! ## One list -/

namespace AdjacencyEntry

abbrev Sorted (entry : AdjacencyEntry) : Prop := entry.Pairwise fun a b => a.key < b.key

theorem mem_add {a x : AdjacencyEdge} {entry : AdjacencyEntry} :
    x ∈ add a entry ↔ x = a ∨ x ∈ entry := by
  induction entry with
  | nil => simp [add]
  | cons e es ih =>
    rw [add]
    split
    · simp
    · simp only [mem_cons, ih]
      tauto

theorem Sorted.add {a : AdjacencyEdge} {entry : AdjacencyEntry} (h : Sorted entry)
    (ha : a ∉ entry) : Sorted (add a entry) := by
  induction entry with
  | nil => exact pairwise_singleton _ _
  | cons e es ih =>
    obtain ⟨he, hes⟩ := pairwise_cons.1 h
    have hne : a.key ≠ e.key := fun hk => ha (AdjacencyEdge.key_injective hk ▸ mem_cons_self)
    rw [AdjacencyEntry.add]
    split
    · next hle =>
      have hlt : a.key < e.key := lt_of_le_of_ne hle hne
      refine pairwise_cons.2 ⟨fun b hb => ?_, h⟩
      rcases mem_cons.1 hb with rfl | hb
      · exact hlt
      · exact hlt.trans (he b hb)
    · next hle =>
      refine pairwise_cons.2 ⟨fun b hb => ?_, ih hes fun hm => ha (mem_cons_of_mem e hm)⟩
      rcases mem_add.1 hb with rfl | hb
      · exact lt_of_not_ge hle
      · exact he b hb

section

variable {entry : AdjacencyEntry} (h : entry.Pairwise fun a b => a.edgeId ≠ b.edgeId)
include h

theorem remove_eq_filter (id : EdgeId) :
    remove id entry = entry.filter fun a => a.edgeId ≠ id := by
  induction entry with
  | nil => rfl
  | cons e es ih =>
    obtain ⟨he, hes⟩ := pairwise_cons.1 h
    rw [remove, eraseP_cons]
    by_cases hid : e.edgeId = id
    · have hall : es.filter (fun a => decide (a.edgeId ≠ id)) = es :=
        filter_eq_self.2 fun b hb => by simpa using fun hb' => he b hb (hid.trans hb'.symm)
      simp only [hid, beq_self_eq_true, cond_true]
      rw [filter_cons_of_neg (by simp [hid]), hall]
    · have := ih hes
      rw [remove] at this
      rw [beq_eq_false_iff_ne.2 hid, cond_false, this, filter_cons_of_pos (by simpa using hid)]

theorem removeAll_eq_filter (ids : List EdgeId) :
    ids.foldl (fun entry id => remove id entry) entry = entry.filter fun a => a.edgeId ∉ ids := by
  induction ids generalizing entry with
  | nil => simp
  | cons id ids ih =>
    rw [List.foldl_cons, remove_eq_filter h, ih (h.filter _), List.filter_filter]
    congr 1
    funext a
    by_cases ha : a.edgeId = id <;> simp [ha]

theorem removeMany_eq_filter {ids : List EdgeId} (hids : ids.Nodup)
    (hsub : entry ≠ [] → ∀ id ∈ ids, ∃ a ∈ entry, a.edgeId = id) :
    Mutator.removeMany ids entry = entry.filter fun a => a.edgeId ∉ ids := by
  unfold Mutator.removeMany
  split
  · next hnil => simp [hnil]
  · split
    · next hlen =>
      by_cases hentry : entry = []
      · simp [hentry]
      -- as many ids as entries, all of them found: every entry is removed
      have hnodup : (entry.map AdjacencyEdge.edgeId).Nodup := pairwise_map.2 h
      have hsubset : ids ⊆ entry.map AdjacencyEdge.edgeId := fun id hid => by
        obtain ⟨a, ha, rfl⟩ := hsub hentry id hid
        exact mem_map_of_mem ha
      have hperm : ids.Perm (entry.map AdjacencyEdge.edgeId) :=
        (subperm_of_subset hids hsubset).perm_of_length_le (by simp [hlen])
      refine (filter_eq_nil_iff.2 fun a ha => ?_).symm
      simpa using hperm.mem_iff.2 (mem_map_of_mem ha)
    · exact removeAll_eq_filter h ids

end

end AdjacencyEntry

/-! ## The lists of all nodes -/

/-- Live edges have different ids. -/
def DistinctIds (edges : Row → Option EdgeSlot) : Prop :=
  ∀ ⦃r r' e e'⦄, edges r = some e → edges r' = some e' → e.id = e'.id → r = r'

namespace Adjacency

/-- The lists of one direction: sorted, without the nodes that are `gone` and the edges that are
`out`, and otherwise the ends of the live edges. -/
structure Exact (lists : NodeId → AdjacencyEntry) (ends : EdgeSlot → List (NodeId × AdjacencyEdge))
    (edges : Row → Option EdgeSlot) (gone : Set NodeId) (out : Set EdgeId) : Prop where
  sorted : ∀ n, AdjacencyEntry.Sorted (lists n)
  mem : ∀ n a, a ∈ lists n ↔
    n ∉ gone ∧ ∃ row e, edges row = some e ∧ e.id ∉ out ∧ (n, a) ∈ ends e

variable {lists lists' : NodeId → AdjacencyEntry} {ends : EdgeSlot → List (NodeId × AdjacencyEdge)}
  {edges : Row → Option EdgeSlot} {gone : Set NodeId} {out : Set EdgeId} {row : Row} {e e' : EdgeSlot}

section

variable (h : Exact lists ends edges gone out)
include h

theorem Exact.distinct (hends : IsEnds ends) (hinj : DistinctIds edges) (n : NodeId) :
    (lists n).Pairwise fun a b => a.edgeId ≠ b.edgeId := by
  refine (h.sorted n).imp_of_mem fun {a b} ha hb hlt heq => ?_
  obtain ⟨-, r, e, he, -, hea⟩ := (h.mem n a).1 ha
  obtain ⟨-, r', e', he', -, heb⟩ := (h.mem n b).1 hb
  obtain rfl := hinj he he' (by rw [← hends.edgeId hea, ← hends.edgeId heb, heq])
  obtain rfl := mem_unique he he'
  rw [hends.unique hea heb] at hlt
  exact lt_irrefl _ hlt

omit h in
theorem Exact.add (h : Exact lists ends edges ∅ ∅) (hends : IsEnds ends)
    (hrow : edges row = none) (hfresh : ∀ r e', edges r = some e' → e'.id ≠ e.id)
    (hadd : ∀ n, (∃ a, (n, a) ∈ ends e ∧ lists' n = AdjacencyEntry.add a (lists n)) ∨
      (∀ a, (n, a) ∉ ends e) ∧ lists' n = lists n) :
    Exact lists' ends (update edges row (some e)) ∅ ∅ := by
  have hold : ∀ {r e'}, edges r = some e' → r ≠ row := by
    rintro r e' he rfl
    rw [hrow] at he
    cases he
  -- the live edges are the old ones and the new one
  have hlive : ∀ n b, (∃ r e', update edges row (some e) r = some e' ∧ e'.id ∉ (∅ : Set EdgeId)
      ∧ (n, b) ∈ ends e') ↔ (n, b) ∈ ends e ∨ b ∈ lists n := by
    intro n b
    rw [h.mem]
    constructor
    · rintro ⟨r, e', he', -, hb⟩
      by_cases hr : r = row
      · subst hr
        rw [update_self] at he'
        obtain rfl := Option.some.inj he'
        exact .inl hb
      · rw [update_of_ne hr] at he'
        exact .inr ⟨Set.notMem_empty n, r, e', he', Set.notMem_empty _, hb⟩
    · rintro (hb | ⟨-, r, e', he', hid, hb⟩)
      · exact ⟨row, e, update_self .., Set.notMem_empty _, hb⟩
      · exact ⟨r, e', by rw [update_of_ne (hold he')]; exact he', hid, hb⟩
  constructor
  · intro n
    rcases hadd n with ⟨a, ha, hn⟩ | ⟨-, hn⟩
    · rw [hn]
      refine (h.sorted n).add fun hm => ?_
      obtain ⟨-, r, e', he', -, hae'⟩ := (h.mem n a).1 hm
      exact hfresh r e' he' (by rw [← hends.edgeId hae', ← hends.edgeId ha])
    · rw [hn]
      exact h.sorted n
  · intro n b
    rw [hlive, and_iff_right (Set.notMem_empty n)]
    rcases hadd n with ⟨a, ha, hn⟩ | ⟨hnone, hn⟩
    · rw [hn, mem_add]
      refine or_congr_left ⟨?_, fun hb => hends.unique hb ha⟩
      rintro rfl
      exact ha
    · rw [hn]
      exact (or_iff_right (hnone b)).symm

theorem Exact.drop (hends : IsEnds ends) (hinj : DistinctIds edges) (he : edges row = some e)
    (hdrop : ∀ n, lists' n = remove e.id (lists n) ∨ (∀ a, (n, a) ∉ ends e) ∧ lists' n = lists n) :
    Exact lists' ends (update edges row none) gone out := by
  have hlive : ∀ n b, (∃ r e', update edges row none r = some e' ∧ e'.id ∉ out ∧
      (n, b) ∈ ends e') ↔ ∃ r e', edges r = some e' ∧ e'.id ∉ out ∧ (n, b) ∈ ends e' ∧ r ≠ row := by
    intro n b
    constructor
    · rintro ⟨r, e', he', hid, hb⟩
      have hr : r ≠ row := by rintro rfl; rw [update_self] at he'; cases he'
      rw [update_of_ne hr] at he'
      exact ⟨r, e', he', hid, hb, hr⟩
    · rintro ⟨r, e', he', hid, hb, hr⟩
      exact ⟨r, e', by rw [update_of_ne hr]; exact he', hid, hb⟩
  constructor
  · intro n
    rcases hdrop n with hn | ⟨-, hn⟩
    · rw [hn]
      exact (h.sorted n).sublist eraseP_sublist
    · rw [hn]
      exact h.sorted n
  · intro n b
    rw [hlive]
    have hmem : b ∈ lists' n ↔ b ∈ lists n ∧ (b.edgeId ≠ e.id) := by
      rcases hdrop n with hn | ⟨hnone, hn⟩
      · rw [hn, remove_eq_filter (h.distinct hends hinj n)]
        simp
      · rw [hn]
        refine ⟨fun hb => ⟨hb, fun hid => ?_⟩, fun hb => hb.1⟩
        obtain ⟨-, r, e', he', -, hb'⟩ := (h.mem n b).1 hb
        obtain rfl := hinj he' he (by rw [← hends.edgeId hb', hid])
        obtain rfl := mem_unique he' he
        exact hnone b hb'
    rw [hmem, h.mem, and_assoc]
    refine and_congr_right fun _ => ?_
    constructor
    · rintro ⟨⟨r, e', he', hid, hb⟩, hne⟩
      refine ⟨r, e', he', hid, hb, ?_⟩
      rintro rfl
      obtain rfl := mem_unique he' he
      exact hne (hends.edgeId hb)
    · rintro ⟨r, e', he', hid, hb, hr⟩
      exact ⟨⟨r, e', he', hid, hb⟩, fun hne => hr (hinj he' he (by rw [← hends.edgeId hb, hne]))⟩

theorem Exact.dropNode (node : NodeId) :
    Exact (update lists node []) ends edges (insert node gone) out := by
  constructor
  · intro n
    by_cases hn : n = node
    · subst hn
      rw [update_self]
      exact List.Pairwise.nil
    · rw [update_of_ne hn]
      exact h.sorted n
  · intro n b
    by_cases hn : n = node
    · subst hn
      simp
    · rw [update_of_ne hn, h.mem]
      simp [hn]

omit h in
theorem Exact.dropMany (h : Exact lists ends edges gone ∅) (hends : IsEnds ends)
    (hinj : DistinctIds edges) {listed : NodeId → List EdgeId} (hnodup : ∀ n, (listed n).Nodup)
    (hlisted : ∀ n id, id ∈ listed n ↔
      id ∈ out ∧ ∃ row e a, edges row = some e ∧ e.id = id ∧ (n, a) ∈ ends e)
    (hdrop : ∀ n, lists' n = Mutator.removeMany (listed n) (lists n)) :
    Exact lists' ends edges gone out := by
  have hfilter : ∀ n, lists' n = (lists n).filter fun a => a.edgeId ∉ listed n := by
    intro n
    rw [hdrop n]
    refine removeMany_eq_filter (h.distinct hends hinj n) (hnodup n) ?_
    intro hne id hid
    obtain ⟨b, hb⟩ := exists_mem_of_ne_nil _ hne
    obtain ⟨-, r, e, a, he, rfl, ha⟩ := (hlisted n id).1 hid
    exact ⟨a, (h.mem n a).2 ⟨((h.mem n b).1 hb).1, r, e, he, Set.notMem_empty _, ha⟩,
      hends.edgeId ha⟩
  constructor
  · intro n
    rw [hfilter n]
    exact (h.sorted n).filter _
  · intro n b
    rw [hfilter n, mem_filter, h.mem, decide_eq_true_eq, and_assoc]
    refine and_congr_right fun _ => ?_
    constructor
    · rintro ⟨⟨r, e, he, -, hb⟩, hid⟩
      refine ⟨r, e, he, fun hout => hid ?_, hb⟩
      exact (hlisted n _).2 ⟨by rwa [hends.edgeId hb], r, e, b, he, (hends.edgeId hb).symm, hb⟩
    · rintro ⟨r, e, he, hout, hb⟩
      refine ⟨⟨r, e, he, Set.notMem_empty _, hb⟩, fun hid => hout ?_⟩
      rw [← hends.edgeId hb]
      exact ((hlisted n _).1 hid).1

theorem Exact.clear (he : edges row = some e)
    (hout : e.id ∈ out) : Exact lists ends (update edges row none) gone out := by
  refine ⟨h.sorted, fun n b => ?_⟩
  rw [h.mem]
  refine and_congr_right fun _ => ?_
  constructor
  · rintro ⟨r, e', he', hid, hb⟩
    have hr : r ≠ row := by
      rintro rfl
      obtain rfl := mem_unique he' he
      exact hid hout
    exact ⟨r, e', by rw [update_of_ne hr]; exact he', hid, hb⟩
  · rintro ⟨r, e', he', hid, hb⟩
    have hr : r ≠ row := by rintro rfl; rw [update_self] at he'; cases he'
    rw [update_of_ne hr] at he'
    exact ⟨r, e', he', hid, hb⟩

theorem Exact.rewrite (he : edges row = some e) (hid : e'.id = e.id) (hsame : ends e' = ends e) :
    Exact lists ends (update edges row (some e')) gone out := by
  refine ⟨h.sorted, fun n b => ?_⟩
  rw [h.mem]
  refine and_congr_right fun _ => ?_
  constructor
  · rintro ⟨r, f, hf, hfid, hb⟩
    by_cases hr : r = row
    · subst hr
      obtain rfl := mem_unique hf he
      exact ⟨r, e', update_self .., by rwa [hid], by rwa [hsame]⟩
    · exact ⟨r, f, by rw [update_of_ne hr]; exact hf, hfid, hb⟩
  · rintro ⟨r, f, hf, hfid, hb⟩
    by_cases hr : r = row
    · subst hr
      rw [update_self] at hf
      obtain rfl := Option.some.inj hf
      exact ⟨r, e, he, by rwa [← hid], by rwa [← hsame]⟩
    · rw [update_of_ne hr] at hf
      exact ⟨r, f, hf, hfid, hb⟩

/-- The exceptions end when no live edge is `out` or ends at a node that is `gone`. -/
theorem Exact.finish (hout : ∀ r e, edges r = some e → e.id ∉ out)
    (hgone : ∀ r e n a, edges r = some e → (n, a) ∈ ends e → n ∉ gone) :
    Exact lists ends edges ∅ ∅ := by
  refine ⟨h.sorted, fun n b => ?_⟩
  rw [h.mem]
  constructor
  · rintro ⟨-, r, e, he, -, hb⟩
    exact ⟨Set.notMem_empty n, r, e, he, Set.notMem_empty _, hb⟩
  · rintro ⟨-, r, e, he, -, hb⟩
    exact ⟨hgone r e n b he hb, r, e, he, hout r e he, hb⟩

end

end Adjacency

end Selene.Graph
