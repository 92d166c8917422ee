import Mathlib.Order.WellFoundedSet
import Bearmail.Lib.Topological

/-!
# Sorted graphs

`utils/src/topological.rs`: what is left when no node is given any more tells whether the edges go in a circle.
-/

namespace Bearmail.Utils

open Topological List

variable {T : Type*} {edges : List (T × T)}

def Acyclic (edges : List (T × T)) : Prop := ∀ v, ¬Relation.TransGen (fun u v => (u, v) ∈ edges) v v

theorem wellFounded_of_acyclic (h : Acyclic edges) : WellFounded fun u v => (u, v) ∈ edges := by
  have hstrict : IsStrictOrder T (Relation.TransGen fun u v => (u, v) ∈ edges) :=
    { irrefl := h, trans := fun _ _ _ => .trans }
  have hfinite : {v | IsNode edges v}.Finite := by
    refine (edges.map Prod.fst ++ edges.map Prod.snd).finite_toSet.subset ?_
    rintro v ⟨e, he, rfl | rfl⟩
    · exact mem_append_left _ (mem_map_of_mem he)
    · exact mem_append_right _ (mem_map_of_mem he)
  have hwf := Set.wellFoundedOn_iff.mp (@Set.Finite.wellFoundedOn _ _ hstrict _ hfinite)
  exact Subrelation.wf (fun huv => ⟨.single huv, ⟨_, huv, .inl rfl⟩, ⟨_, huv, .inr rfl⟩⟩) hwf

variable [DecidableEq T]

theorem acyclic_of_before {l : List T} (h : Before edges l) (hall : ∀ v, IsNode edges v → v ∈ l) :
    Acyclic edges := by
  have hedge : ∀ {u v}, (u, v) ∈ edges → l.idxOf u < l.idxOf v := by
    intro u v huv
    obtain ⟨front, back, rfl, hv⟩ := eq_append_cons_of_mem (hall v ⟨_, huv, .inr rfl⟩)
    have hu := h front v back rfl u huv
    rw [idxOf_append_of_mem hu, idxOf_append_of_notMem hv, idxOf_cons_self]
    exact idxOf_lt_length_of_mem hu
  have hpath : ∀ {u v}, Relation.TransGen (fun u v => (u, v) ∈ edges) u v → l.idxOf u < l.idxOf v := by
    intro u v huv
    induction huv with
    | single huv => exact hedge huv
    | tail _ hvw ih => exact ih.trans (hedge hvw)
  exact fun v hv => Nat.lt_irrefl _ (hpath hv)

theorem topologicalSort_spec {order : List T} (ho : Orders edges order) :
    ∃ n it, it = (TopologicalSort.ofEdges edges).intoIterator order ∧ (it.last n).next = none ∧
      (it.drain n).Nodup ∧ Before edges (it.drain n) ∧ ((it.last n).isValid ↔ Acyclic edges) ∧
      (Acyclic edges → ∀ v, IsNode edges v → v ∈ it.drain n) := by
  obtain ⟨hnodup, hbefore, -, _, rfl, hinv, hempty⟩ := sort_spec ho
  have hall : Acyclic edges → ∀ v, IsNode edges v → v ∈ sort edges order :=
    fun h _ => mem_sort ho (wellFounded_of_acyclic h)
  refine ⟨2 * edges.length + 1, _, rfl, by rw [Iterator.next, hempty], hnodup, hbefore,
    ⟨fun hvalid => ?_, fun h v => ?_⟩, hall⟩
  · refine acyclic_of_before hbefore fun v hv => ?_
    simpa [hempty, hvalid v] using hinv.cover v hv
  · -- what is counted waits for a node that is not given
    by_contra hsome
    obtain ⟨n, hn⟩ := Option.ne_none_iff_exists'.mp hsome
    obtain ⟨hp, hpos⟩ := hinv.count v n hn
    obtain ⟨e, he, -, hnot⟩ := isNode_of_pending (hp ▸ hpos)
    exact hnot (hall h e.1 ⟨e, he, .inl rfl⟩)

theorem topologicalSort_spec_edge :
    ∃ n it, it = (TopologicalSort.ofEdges [(1, 2)]).intoIterator [2, 1] ∧ (it.last n).next = none ∧
      (it.drain n).Nodup ∧ Before [(1, 2)] (it.drain n) ∧ ((it.last n).isValid ↔ Acyclic [(1, 2)]) ∧
      (Acyclic [(1, 2)] → ∀ v, IsNode [(1, 2)] v → v ∈ it.drain n) :=
  topologicalSort_spec ⟨by decide, fun v => by simp [IsNode, or_comm, eq_comm]⟩

end Bearmail.Utils
