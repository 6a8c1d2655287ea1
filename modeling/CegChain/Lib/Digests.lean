import Mathlib.Data.List.Basic
import Mathlib.Tactic.Ring

/-!
# Digests block by block

A digest of a message is computed by a compression function, on one block after another.  A
program that is given the message in pieces keeps what does not fill a block yet and goes on
with it when the next piece comes.  `absorb` is one such step: it compresses the whole
blocks of some data and returns the rest.  It does not matter how the data is cut
(`absorb_append`).

The `calls` of two computations tell where a digest fails to be injective.  When different
inputs of equally many blocks have one result, two of the calls collide
(`collide_of_compressBlocks`), and where the last blocks tell the lengths apart, so do two of
the calls for any different inputs (`collide_of_last`).
-/

namespace CegChain.Digests

variable {σ β : Type*} (compress : σ → List β → σ) (size : ℕ)

/-- Compress so many blocks at the front of the data. -/
def compressBlocks : ℕ → σ → List β → σ
  | 0, s, _ => s
  | n + 1, s, data => compressBlocks n (compress s (data.take size)) (data.drop size)

/-- The states and the blocks that `compressBlocks` applies the compression to. -/
def calls : ℕ → σ → List β → List (σ × List β)
  | 0, _, _ => []
  | n + 1, s, data =>
      (s, data.take size) :: calls n (compress s (data.take size)) (data.drop size)

/-- Compress the whole blocks of the data; the rest is left. -/
def absorb (s : σ) (data : List β) : σ × List β :=
  (compressBlocks compress size (data.length / size) s data,
    data.drop (size * (data.length / size)))

/-- One call of the first list and one of the second are not the same and have one result. -/
def Collide (xs ys : List (σ × List β)) : Prop :=
  ∃ x ∈ xs, ∃ y ∈ ys, x ≠ y ∧ compress x.1 x.2 = compress y.1 y.2

instance [DecidableEq σ] [DecidableEq β] (xs ys : List (σ × List β)) :
    Decidable (Collide compress xs ys) :=
  inferInstanceAs (Decidable (∃ x ∈ xs, ∃ y ∈ ys, x ≠ y ∧ compress x.1 x.2 = compress y.1 y.2))

variable {compress size} {s t : σ} {data block xs ys : List β}

/-! ## Pieces -/

theorem absorb_of_lt (hlt : data.length < size) : absorb compress size s data = (s, data) := by
  rw [absorb, Nat.div_eq_of_lt hlt, Nat.mul_zero, List.drop_zero, compressBlocks]

/-- The first block is compressed first. -/
theorem absorb_block (hsize : 0 < size) (hblock : block.length = size) (data : List β) :
    absorb compress size s (block ++ data) = absorb compress size (compress s block) data := by
  have hdiv : (block ++ data).length / size = data.length / size + 1 := by
    rw [List.length_append, hblock, Nat.add_comm, Nat.add_div_right _ hsize]
  have hdrop : (block ++ data).drop (size * (data.length / size + 1)) =
      data.drop (size * (data.length / size)) := by
    rw [Nat.mul_succ, Nat.add_comm, ← hblock, List.drop_length_add_append]
  rw [absorb, absorb, hdiv, hdrop, compressBlocks, List.take_left' hblock, List.drop_left' hblock]

/-- **It does not matter how the data is cut.** -/
theorem absorb_append (hsize : 0 < size) (s : σ) (xs ys : List β) :
    absorb compress size s (xs ++ ys) =
      absorb compress size (absorb compress size s xs).1
        ((absorb compress size s xs).2 ++ ys) := by
  induction hn : xs.length using Nat.strong_induction_on generalizing s xs with
  | _ n ih =>
      subst hn
      rcases Nat.lt_or_ge xs.length size with hlt | hge
      · rw [absorb_of_lt hlt]
      · have hblock : (xs.take size).length = size := by simpa using hge
        have hshorter : (xs.drop size).length < xs.length := by
          rw [List.length_drop]
          omega
        have hfirst : absorb compress size s xs =
            absorb compress size (compress s (xs.take size)) (xs.drop size) := by
          rw [← absorb_block hsize hblock, List.take_append_drop]
        calc absorb compress size s (xs ++ ys)
            = absorb compress size s (xs.take size ++ (xs.drop size ++ ys)) := by
              rw [← List.append_assoc, List.take_append_drop]
          _ = absorb compress size (compress s (xs.take size)) (xs.drop size ++ ys) :=
              absorb_block hsize hblock _
          _ = absorb compress size (absorb compress size s xs).1
                ((absorb compress size s xs).2 ++ ys) := by
              rw [ih _ hshorter _ _ rfl, hfirst]

theorem length_absorb_snd (s : σ) (data : List β) :
    (absorb compress size s data).2.length = data.length % size := by
  rw [absorb, List.length_drop, Nat.mod_eq_sub_mul_div]

/-! ## Collisions -/

/-- The last block is compressed last. -/
theorem compressBlocks_succ (n : ℕ) (s : σ) (data : List β) :
    compressBlocks compress size (n + 1) s data =
      compress (compressBlocks compress size n s data) ((data.drop (size * n)).take size) := by
  induction n generalizing s data with
  | zero => rfl
  | succ n ih => rw [compressBlocks, ih, compressBlocks, List.drop_drop, Nat.mul_succ, Nat.add_comm]

/-- So the last call is the one on the last block. -/
theorem last_mem_calls (n : ℕ) (s : σ) (data : List β) :
    (compressBlocks compress size n s data, (data.drop (size * n)).take size) ∈
      calls compress size (n + 1) s data := by
  induction n generalizing s data with
  | zero => exact List.mem_cons_self
  | succ n ih =>
      refine List.mem_cons_of_mem _ ?_
      have hmem := ih (compress s (data.take size)) (data.drop size)
      rwa [List.drop_drop, ← Nat.add_comm (size * n), ← Nat.mul_succ] at hmem

/-- Different inputs of equally many blocks with one result. -/
theorem collide_of_compressBlocks {n : ℕ} {s t : σ} {xs ys : List β}
    (hxs : xs.length = size * n) (hys : ys.length = size * n)
    (heq : compressBlocks compress size n s xs = compressBlocks compress size n t ys)
    (hne : (s, xs) ≠ (t, ys)) :
    Collide compress (calls compress size n s xs) (calls compress size n t ys) := by
  induction n generalizing s t xs ys with
  | zero =>
      rw [Nat.mul_zero, List.length_eq_zero_iff] at hxs hys
      exact absurd (Prod.ext heq (hxs.trans hys.symm)) hne
  | succ n ih =>
      rw [Nat.mul_succ] at hxs hys
      by_cases hrest : (compress s (xs.take size), xs.drop size) =
          (compress t (ys.take size), ys.drop size)
      · -- the first calls have one result, and the rest is the same
        obtain ⟨hresult, hdrop⟩ := Prod.mk.inj hrest
        refine ⟨_, List.mem_cons_self, _, List.mem_cons_self, fun hfirst => hne ?_, hresult⟩
        obtain ⟨hstart, htake⟩ := Prod.mk.inj hfirst
        rw [hstart, ← List.take_append_drop size xs, htake, hdrop, List.take_append_drop]
      · obtain ⟨x, hx, y, hy, hxy⟩ := ih (by simp [hxs]) (by simp [hys]) heq hrest
        exact ⟨x, List.mem_cons_of_mem _ hx, y, List.mem_cons_of_mem _ hy, hxy⟩

/-- Any two inputs with different last blocks and one result. -/
theorem collide_of_last {n m : ℕ} (hxs : xs.length = size * (n + 1))
    (hys : ys.length = size * (m + 1))
    (heq : compressBlocks compress size (n + 1) s xs = compressBlocks compress size (m + 1) t ys)
    (hlast : xs.drop (size * n) ≠ ys.drop (size * m)) :
    Collide compress (calls compress size (n + 1) s xs) (calls compress size (m + 1) t ys) := by
  rw [compressBlocks_succ, compressBlocks_succ] at heq
  refine ⟨_, last_mem_calls n s xs, _, last_mem_calls m t ys, fun hsame => hlast ?_, heq⟩
  have htake := (Prod.mk.inj hsame).2
  rwa [List.take_of_length_le (by simp [hxs, Nat.mul_succ]),
    List.take_of_length_le (by simp [hys, Nat.mul_succ])] at htake

end CegChain.Digests
