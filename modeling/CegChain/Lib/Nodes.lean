import Mathlib.Data.List.Perm.Basic
import Mathlib.Data.List.TakeWhile
import CegChain.Lib.OrderedMap

/-!
# Containers with iterators

A `std::multiset` as the list of its nodes in the order of the container.  A node has a
name, which stands for the iterator that points to it: dereferencing is looking the name
up, and erasing through an iterator removes the node and leaves the others alone.  Where a
new element is put is left to the caller.
-/

namespace Nodes

variable {α : Type*}

/-- The element that the iterator points to. -/
def deref (node : ℕ) (nodes : List (ℕ × α)) : Option α :=
  nodes.lookup node

/-- `erase` through an iterator. -/
def erase (node : ℕ) (nodes : List (ℕ × α)) : List (ℕ × α) :=
  nodes.filter fun entry => entry.1 ≠ node

/-- `emplace` of an element in front of which there are `pos` others. -/
def emplace (pos node : ℕ) (a : α) (nodes : List (ℕ × α)) : List (ℕ × α) :=
  nodes.take pos ++ (node, a) :: nodes.drop pos

/-- How many elements the container has before the upper bound of an element. -/
def upperBound (lt : α → α → Bool) (a : α) (nodes : List (ℕ × α)) : ℕ :=
  (nodes.takeWhile fun entry => !lt a entry.2).length

/-- The container is in the order of its comparison. -/
def InOrder (lt : α → α → Bool) (nodes : List (ℕ × α)) : Prop :=
  nodes.Pairwise fun entry later => lt later.2 entry.2 = false

variable {nodes : List (ℕ × α)} {node pos : ℕ} {a : α} {entry : ℕ × α}

theorem mem_erase : entry ∈ erase node nodes ↔ entry ∈ nodes ∧ entry.1 ≠ node := by
  simp [erase]

theorem nodup_erase (hnodup : (nodes.map Prod.fst).Nodup) :
    ((erase node nodes).map Prod.fst).Nodup :=
  hnodup.sublist (List.filter_sublist.map _)

theorem sublist_erase : (erase node nodes).Sublist nodes :=
  List.filter_sublist

/-- Through an iterator exactly one element is erased. -/
theorem erase_perm (hnodup : (nodes.map Prod.fst).Nodup) (hmem : (node, a) ∈ nodes) :
    nodes.Perm ((node, a) :: erase node nodes) := by
  induction nodes with
  | nil => exact absurd hmem List.not_mem_nil
  | cons head nodes ih =>
      rw [List.map_cons, List.nodup_cons] at hnodup
      obtain ⟨hhead, hrest⟩ := hnodup
      rcases List.mem_cons.mp hmem with rfl | hmem
      · have hself : erase node nodes = nodes := by
          refine List.filter_eq_self.mpr fun entry hentry => decide_eq_true fun heq => ?_
          have hin : entry.1 ∈ nodes.map Prod.fst := List.mem_map_of_mem hentry
          exact hhead (heq ▸ hin)
        have hcons : erase node ((node, a) :: nodes) = erase node nodes := by simp [erase]
        rw [hcons, hself]
      · have hne : head.1 ≠ node := by
          intro heq
          have hin : node ∈ nodes.map Prod.fst := List.mem_map_of_mem (f := Prod.fst) hmem
          exact hhead (heq ▸ hin)
        have hcons : erase node (head :: nodes) = head :: erase node nodes := by
          simp [erase, hne]
        rw [hcons]
        exact ((ih hrest hmem).cons head).trans (List.Perm.swap _ _ _)

theorem length_erase (hnodup : (nodes.map Prod.fst).Nodup) (hmem : (node, a) ∈ nodes) :
    (erase node nodes).length + 1 = nodes.length := by
  rw [(erase_perm hnodup hmem).length_eq, List.length_cons]

theorem emplace_perm : (emplace pos node a nodes).Perm ((node, a) :: nodes) := by
  have hmiddle : (emplace pos node a nodes).Perm
      ((node, a) :: (nodes.take pos ++ nodes.drop pos)) := List.perm_middle
  rwa [List.take_append_drop] at hmiddle

theorem mem_emplace : entry ∈ emplace pos node a nodes ↔ entry = (node, a) ∨ entry ∈ nodes := by
  rw [emplace_perm.mem_iff, List.mem_cons]

theorem nodup_emplace (hnodup : (nodes.map Prod.fst).Nodup) (hfresh : node ∉ nodes.map Prod.fst) :
    ((emplace pos node a nodes).map Prod.fst).Nodup := by
  rw [(emplace_perm.map Prod.fst).nodup_iff, List.map_cons, List.nodup_cons]
  exact ⟨hfresh, hnodup⟩

theorem deref_eq_some_iff (hnodup : (nodes.map Prod.fst).Nodup) :
    deref node nodes = some a ↔ (node, a) ∈ nodes :=
  OrderedMap.lookup_eq_some_iff hnodup

section Order

variable {lt : α → α → Bool}

/-- The elements from the upper bound of an element on come after it. -/
theorem lt_of_mem_dropWhile (htrans : ∀ a b c, lt a b = true → lt b c = true → lt a c = true)
    (horder : InOrder lt nodes) (hasymm : ∀ a b, lt a b = true → lt b a = false)
    (hmem : entry ∈ nodes.dropWhile fun entry => !lt a entry.2) : lt entry.2 a = false := by
  induction nodes with
  | nil => exact absurd hmem List.not_mem_nil
  | cons head nodes ih =>
      rw [List.dropWhile_cons] at hmem
      obtain ⟨hhead, hrest⟩ := List.pairwise_cons.mp horder
      cases hlt : lt a head.2 with
      | false =>
          rw [if_pos (by rw [hlt]; rfl)] at hmem
          exact ih hrest hmem
      | true =>
          rw [if_neg (by rw [hlt]; simp)] at hmem
          rcases List.mem_cons.mp hmem with rfl | hmem
          · exact hasymm _ _ hlt
          · cases hback : lt entry.2 a with
            | false => rfl
            | true =>
                have hpast := htrans _ _ _ hback hlt
                rw [hhead entry hmem] at hpast
                exact absurd hpast (by simp)

/-- **A container in order stays in order** when an element is put at its upper bound. -/
theorem InOrder.emplace (htrans : ∀ a b c, lt a b = true → lt b c = true → lt a c = true)
    (hasymm : ∀ a b, lt a b = true → lt b a = false) (horder : InOrder lt nodes) :
    InOrder lt (emplace (upperBound lt a nodes) node a nodes) := by
  have hsplit := List.takeWhile_append_dropWhile (p := fun entry => !lt a entry.2) (l := nodes)
  have htake : nodes.take (upperBound lt a nodes) =
      nodes.takeWhile fun entry => !lt a entry.2 :=
    (congrArg (List.take (upperBound lt a nodes)) hsplit.symm).trans List.take_left
  have hdrop : nodes.drop (upperBound lt a nodes) =
      nodes.dropWhile fun entry => !lt a entry.2 :=
    (congrArg (List.drop (upperBound lt a nodes)) hsplit.symm).trans List.drop_left
  have hparts := horder
  unfold InOrder at hparts ⊢
  rw [← hsplit, List.pairwise_append] at hparts
  obtain ⟨hbefore, hbehind, hacross⟩ := hparts
  rw [Nodes.emplace, htake, hdrop, List.pairwise_append]
  refine ⟨hbefore, ?_, ?_⟩
  · rw [List.pairwise_cons]
    exact ⟨fun entry hentry => lt_of_mem_dropWhile htrans horder hasymm hentry, hbehind⟩
  · intro entry hentry later hlater
    rcases List.mem_cons.mp hlater with rfl | hlater
    · simpa using List.mem_takeWhile_imp hentry
    · exact hacross entry hentry later hlater

end Order

end Nodes
