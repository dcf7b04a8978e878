import Mathlib.Combinatorics.SimpleGraph.Connectivity.Connected
import Mathlib.SetTheory.Cardinal.Finite

/-!
# Multigraphs

Nodes, and edges with an identity of their own, each between two nodes; parallel edges and loops are
allowed. The components are those of the simple graph of the nodes.

* `isBridge_iff`: removing an edge gives more components when its ends are not joined without it.
* `isCut_iff`: removing a node gives more components when it separates two others.
-/

open Relation SimpleGraph

/-- A multigraph. -/
structure Multigraph (V E : Type) where
  nodes : Set V
  edges : Set E
  ends : E → V × V

namespace Multigraph

variable {V E : Type} (G : Multigraph V E)

/-- An edge is between two nodes. -/
def Between (e : E) (x y : V) : Prop :=
  e ∈ G.edges ∧ x ∈ G.nodes ∧ y ∈ G.nodes ∧ (G.ends e = (x, y) ∨ G.ends e = (y, x))

/-- Joined by an edge. -/
def Adj (x y : V) : Prop := ∃ e, G.Between e x y

/-- The simple graph of the nodes. -/
def simple : SimpleGraph G.nodes where
  Adj x y := x ≠ y ∧ G.Adj x y
  symm := ⟨by
    rintro x y ⟨hne, e, he, hx, hy, hends⟩
    exact ⟨hne.symm, e, he, hy, hx, hends.symm⟩⟩

/-- The number of connected components. -/
noncomputable def components : ℕ := Nat.card G.simple.ConnectedComponent

def removeEdge (e : E) : Multigraph V E := { G with edges := G.edges \ {e} }

def removeNode (w : V) : Multigraph V E := { G with nodes := G.nodes \ {w} }

/-- An edge whose removal gives more components. -/
def IsBridge (e : E) : Prop := e ∈ G.edges ∧ G.components < (G.removeEdge e).components

/-- A node whose removal gives more components. -/
def IsCut (w : V) : Prop := w ∈ G.nodes ∧ G.components < (G.removeNode w).components

variable {G} {e : E} {x y w : V}

theorem Between.symm (h : G.Between e x y) : G.Between e y x := ⟨h.1, h.2.2.1, h.2.1, h.2.2.2.symm⟩

theorem Adj.symm (h : G.Adj x y) : G.Adj y x := h.imp fun _ => Between.symm

theorem reachable_symm (h : ReflTransGen G.Adj x y) : ReflTransGen G.Adj y x := by
  induction h with
  | refl => exact .refl
  | tail _ hbc ih => exact .head hbc.symm ih

theorem reachable_iff (hx : x ∈ G.nodes) (hy : y ∈ G.nodes) :
    G.simple.Reachable ⟨x, hx⟩ ⟨y, hy⟩ ↔ ReflTransGen G.Adj x y := by
  rw [SimpleGraph.reachable_iff_reflTransGen]
  constructor
  · intro h
    exact ReflTransGen.lift Subtype.val (fun _ _ hab => hab.2) _ _ h
  · intro h
    induction h with
    | refl => exact .refl
    | @tail a b hab hbc ih =>
      obtain ⟨e, hbetween⟩ := hbc
      have ha : a ∈ G.nodes := hbetween.2.1
      by_cases heq : a = b
      · subst heq
        exact ih ha
      · exact (ih ha).tail ⟨fun h => heq (congrArg Subtype.val h), e, hbetween⟩

section Part

variable {H : Multigraph V E} (hnodes : H.nodes ⊆ G.nodes) (hadj : ∀ {x y}, H.Adj x y → G.Adj x y)

/-- The components of a part of a graph, in the whole graph. -/
def inComponent : H.simple.ConnectedComponent → G.simple.ConnectedComponent :=
  ConnectedComponent.map
    ⟨Set.inclusion hnodes, fun {_ _} hab => ⟨fun heq => hab.1 (Set.inclusion_injective hnodes heq),
      hadj hab.2⟩⟩

theorem inComponent_mk (hx : x ∈ H.nodes) : inComponent hnodes hadj
    (H.simple.connectedComponentMk ⟨x, hx⟩) = G.simple.connectedComponentMk ⟨x, hnodes hx⟩ :=
  rfl

include hnodes hadj

theorem components_le (hfin : G.nodes.Finite)
    (hjoined : ∀ {x y}, x ∈ H.nodes → y ∈ H.nodes → ReflTransGen G.Adj x y → ReflTransGen H.Adj x y) :
    H.components ≤ G.components := by
  have : Finite G.nodes := hfin
  have : Finite G.simple.ConnectedComponent := Quot.finite _
  refine Nat.card_le_card_of_injective (inComponent hnodes hadj) fun C D => ?_
  induction C using ConnectedComponent.ind with | _ x =>
  induction D using ConnectedComponent.ind with | _ y =>
  intro heq
  rw [inComponent_mk, inComponent_mk, ConnectedComponent.eq, reachable_iff] at heq
  rw [ConnectedComponent.eq, reachable_iff]
  exact hjoined x.2 y.2 heq

theorem components_lt (hfin : G.nodes.Finite)
    (hmeets : ∀ {x}, x ∈ G.nodes → ∃ y ∈ H.nodes, ReflTransGen G.Adj y x)
    (hx : x ∈ H.nodes) (hy : y ∈ H.nodes) (hxy : ReflTransGen G.Adj x y)
    (hnot : ¬ ReflTransGen H.Adj x y) : G.components < H.components := by
  have : Finite H.nodes := hfin.subset hnodes
  have : Finite H.simple.ConnectedComponent := Quot.finite _
  have hsurj : Function.Surjective (inComponent hnodes hadj) := by
    intro C
    induction C using ConnectedComponent.ind with | _ z =>
    obtain ⟨y, hy, hyz⟩ := hmeets z.2
    refine ⟨H.simple.connectedComponentMk ⟨y, hy⟩, ?_⟩
    rw [inComponent_mk, ConnectedComponent.eq, reachable_iff]
    exact hyz
  by_contra hle
  have hinj := (hsurj.bijective_of_nat_card_le (not_lt.1 hle)).1
  refine hnot ?_
  have heq : inComponent hnodes hadj (H.simple.connectedComponentMk ⟨x, hx⟩) =
      inComponent hnodes hadj (H.simple.connectedComponentMk ⟨y, hy⟩) := by
    rw [inComponent_mk, inComponent_mk, ConnectedComponent.eq, reachable_iff]
    exact hxy
  have := hinj heq
  rwa [ConnectedComponent.eq, reachable_iff] at this

end Part

theorem removeEdge_adj (h : (G.removeEdge e).Adj x y) : G.Adj x y := by
  obtain ⟨f, hf, hrest⟩ := h
  exact ⟨f, hf.1, hrest⟩

theorem isBridge_iff (hfin : G.nodes.Finite) (he : G.Between e x y) :
    G.IsBridge e ↔ ¬ ReflTransGen (G.removeEdge e).Adj x y := by
  constructor
  · rintro ⟨-, hlt⟩ hway
    refine absurd hlt (not_lt.2 ?_)
    -- every step along the edge has another way
    have hstep : ∀ a b, G.Adj a b → ReflTransGen (G.removeEdge e).Adj a b := by
      rintro a b ⟨f, hf, hab⟩
      by_cases hfe : f = e
      · have hpair : a = x ∧ b = y ∨ a = y ∧ b = x := by
          have hends := he.2.2.2
          have hends' := hab.2.2
          grind
        rcases hpair with ⟨rfl, rfl⟩ | ⟨rfl, rfl⟩
        · exact hway
        · exact reachable_symm hway
      · exact .single ⟨f, ⟨hf, hfe⟩, hab⟩
    refine components_le (H := G.removeEdge e) subset_rfl removeEdge_adj hfin fun _ _ hab => ?_
    induction hab with
    | refl => exact .refl
    | tail _ hbc ih =>
      obtain ⟨f, hf⟩ := hbc
      exact (ih hf.2.1).trans (hstep _ _ ⟨f, hf⟩)
  · intro hnot
    refine ⟨he.1, ?_⟩
    exact components_lt (H := G.removeEdge e) subset_rfl removeEdge_adj hfin
      (fun {z} hz => ⟨z, hz, .refl⟩) he.2.1 he.2.2.1 (.single ⟨e, he⟩) hnot

theorem Between.eq_of_bridge {f : E} (he : G.Between e x y) (hfin : G.nodes.Finite)
    (hbridge : G.IsBridge e) (hf : G.Between f x y) : f = e := by
  by_contra hne
  exact (isBridge_iff hfin he).1 hbridge (.single ⟨f, ⟨hf.1, hne⟩, hf.2⟩)

theorem removeNode_adj (h : (G.removeNode w).Adj x y) : G.Adj x y := by
  obtain ⟨f, hf, hx, hy, hends⟩ := h
  exact ⟨f, hf, hx.1, hy.1, hends⟩

theorem isCut_iff (hfin : G.nodes.Finite) (hw : w ∈ G.nodes) : G.IsCut w ↔
    ∃ x y, x ∈ G.nodes ∧ y ∈ G.nodes ∧ x ≠ w ∧ y ≠ w ∧ ReflTransGen G.Adj x y ∧
      ¬ ReflTransGen (G.removeNode w).Adj x y := by
  have hsub : (G.removeNode w).nodes ⊆ G.nodes := Set.sdiff_subset
  constructor
  · rintro ⟨-, hlt⟩
    by_contra hall
    push Not at hall
    refine absurd hlt (not_lt.2 (components_le hsub removeNode_adj hfin fun hx hy hxy => ?_))
    exact hall _ _ hx.1 hy.1 hx.2 hy.2 hxy
  · rintro ⟨x, y, hx, hy, hxw, hyw, hxy, hnot⟩
    -- a way that never comes to `w` does not need it
    have hreach : ReflTransGen G.Adj x w := by
      by_contra hno
      refine hnot ?_
      have hne : ∀ {z}, ReflTransGen G.Adj x z → z ≠ w := fun hz heq => hno (heq ▸ hz)
      clear hnot hy hyw
      induction hxy with
      | refl => exact .refl
      | tail hab hbc ih =>
        obtain ⟨e, he, ha, hb, hends⟩ := hbc
        exact ih.tail ⟨e, he, ⟨ha, hne hab⟩, ⟨hb, hne (hab.tail ⟨e, he, ha, hb, hends⟩)⟩, hends⟩
    refine ⟨hw, components_lt hsub removeNode_adj hfin (fun {z} hz => ?_) ⟨hx, hxw⟩ ⟨hy, hyw⟩ hxy hnot⟩
    by_cases hzw : z = w
    · exact ⟨x, ⟨hx, hxw⟩, hzw ▸ hreach⟩
    · exact ⟨z, ⟨hz, hzw⟩, .refl⟩

end Multigraph
