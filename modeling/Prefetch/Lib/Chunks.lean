/-
# Prefetch.Lib.Chunks — items cut into chunks below a limit

Items with weights come one after the other. Each goes to the chunk begun last, or begins a new one if
that one would exceed the limit with it. An item too heavy for any chunk gets one of its own, so that only
a chunk of several items is sure to stay below the limit.
-/
import Mathlib.Algebra.BigOperators.Group.List.Basic
import Mathlib.Data.List.Chain
import Mathlib.Order.Defs.LinearOrder
import Mathlib.Order.Lattice
import Mathlib.Tactic.Common

namespace Chunks

variable {α β : Type*} [AddMonoid β] [LinearOrder β] (weight : α → β) (limit : β)

/-- What the items of a chunk weigh together. -/
def total (chunk : List α) : β := (chunk.map weight).sum

/-- The chunks with one more item. -/
def add (chunks : List (List α)) (x : α) : List (List α) :=
  match chunks.getLast? with
  | none => [[x]]
  | some chunk =>
      if limit < total weight chunk + weight x then chunks ++ [[x]]
      else chunks.dropLast ++ [chunk ++ [x]]

/-- The chunks of a list of items. -/
def chunksOf (items : List α) : List (List α) := items.foldl (add weight limit) []

/-- No chunk is empty, one of several items is below the limit, and each one begins with an item that
would have exceeded the limit in the chunk before. -/
structure IsChunking (chunks : List (List α)) : Prop where
  ne_nil : ∀ chunk ∈ chunks, chunk ≠ []
  total_le : ∀ chunk ∈ chunks, 1 < chunk.length → total weight chunk ≤ limit
  exceeded : chunks.IsChain fun chunk next =>
    ∀ x ∈ next.head?, limit < total weight chunk + weight x

variable {weight limit} {chunks front : List (List α)} {chunk : List α} {x : α}

omit [LinearOrder β] in
theorem total_concat : total weight (chunk ++ [x]) = total weight chunk + weight x := by
  simp [total]

@[simp] theorem add_nil : add weight limit [] x = [[x]] := rfl

theorem add_concat : add weight limit (front ++ [chunk]) x =
    if limit < total weight chunk + weight x then front ++ [chunk] ++ [[x]]
    else front ++ [chunk ++ [x]] := by
  simp [add]

theorem chunksOf_concat (items : List α) (x : α) :
    chunksOf weight limit (items ++ [x]) = add weight limit (chunksOf weight limit items) x :=
  List.foldl_concat ..

/-- An item goes behind the others. -/
theorem flatten_add : (add weight limit chunks x).flatten = chunks.flatten ++ [x] := by
  cases chunks using List.reverseRecOn with
  | nil => rfl
  | append_singleton front chunk _ =>
      rw [add_concat]
      split <;> simp

/-- **One more item.** -/
theorem IsChunking.add (h : IsChunking weight limit chunks) :
    IsChunking weight limit (add weight limit chunks x) := by
  cases chunks using List.reverseRecOn with
  | nil => exact ⟨by simp, by simp, by simp⟩
  | append_singleton front chunk _ =>
      have hchunk : chunk ≠ [] := h.ne_nil chunk (by simp)
      rw [add_concat]
      split
      · next hlimit =>
        refine ⟨?_, ?_, ?_⟩
        · intro c hc
          rcases List.mem_append.mp hc with hc | hc
          · exact h.ne_nil c hc
          · rw [List.mem_singleton.mp hc]
            exact List.cons_ne_nil x []
        · intro c hc hlen
          rcases List.mem_append.mp hc with hc | hc
          · exact h.total_le c hc hlen
          · rw [List.mem_singleton.mp hc] at hlen
            exact absurd hlen (lt_irrefl 1)
        · refine h.exceeded.append (.singleton _) ?_
          intro c hc d hd y hy
          simp only [List.getLast?_concat, Option.mem_some_iff] at hc
          simp only [List.head?_cons, Option.mem_some_iff] at hd
          subst hc hd
          simp only [List.head?_cons, Option.mem_some_iff] at hy
          exact hy ▸ hlimit
      · next hlimit =>
        refine ⟨?_, ?_, ?_⟩
        · intro c hc
          rcases List.mem_append.mp hc with hc | hc
          · exact h.ne_nil c (List.mem_append_left _ hc)
          · rw [List.mem_singleton.mp hc]
            simp
        · intro c hc hlen
          rcases List.mem_append.mp hc with hc | hc
          · exact h.total_le c (List.mem_append_left _ hc) hlen
          · rw [List.mem_singleton.mp hc, total_concat]
            exact not_lt.mp hlimit
        -- the last chunk begins as before
        · obtain ⟨hfront, -, hlast⟩ := List.isChain_append.mp h.exceeded
          refine hfront.append (.singleton _) ?_
          intro c hc d hd y hy
          simp only [List.head?_cons, Option.mem_some_iff] at hd
          subst hd
          rw [List.head?_append_of_ne_nil _ hchunk] at hy
          exact hlast c hc chunk (by simp) y hy

/-- **Cutting a list keeps its items in order.** -/
theorem flatten_chunksOf (items : List α) : (chunksOf weight limit items).flatten = items := by
  induction items using List.reverseRecOn with
  | nil => rfl
  | append_singleton items x ih => rw [chunksOf_concat, flatten_add, ih]

/-- **What is cut are chunks.** -/
theorem isChunking_chunksOf (items : List α) :
    IsChunking weight limit (chunksOf weight limit items) := by
  induction items using List.reverseRecOn with
  | nil => exact ⟨by simp [chunksOf], by simp [chunksOf], by simp [chunksOf]⟩
  | append_singleton items x ih =>
      rw [chunksOf_concat]
      exact ih.add

end Chunks
