/-
Singly linked lists threaded through a store.

`next` gives the link kept at a node and `stop` tells the links that end a list
(a null pointer, an end-of-chain mark). `Linked next stop a xs` says that
following the links from `a` meets exactly the nodes `xs`, in order, and then a
stop. The list a link starts is unique (`Linked.unique`), and it depends only
on the links of its own nodes (`Linked.congr`).
-/

import Mathlib.Data.List.Basic

namespace Lib

variable {α : Type}

/-- The nodes met by following the links from `a` are `xs`, up to a stop. -/
def Linked (next : α → α) (stop : α → Prop) : α → List α → Prop
  | a, [] => stop a
  | a, x :: xs => a = x ∧ ¬ stop a ∧ Linked next stop (next x) xs

namespace Linked

variable {next next' : α → α} {stop : α → Prop} {a : α} {xs ys : List α}

theorem unique (hx : Linked next stop a xs) (hy : Linked next stop a ys) : xs = ys := by
  induction xs generalizing a ys with
  | nil =>
      cases ys with
      | nil => rfl
      | cons y ys => exact absurd hx hy.2.1
  | cons x xs ih =>
      cases ys with
      | nil => exact absurd hy hx.2.1
      | cons y ys =>
          obtain ⟨rfl, -, hrest⟩ := hx
          obtain ⟨rfl, -, hrest'⟩ := hy
          rw [ih hrest hrest']

theorem congr (hx : Linked next stop a xs) (same : ∀ x ∈ xs, next' x = next x) :
    Linked next' stop a xs := by
  induction xs generalizing a with
  | nil => exact hx
  | cons x xs ih =>
      obtain ⟨rfl, hgo, hrest⟩ := hx
      refine ⟨rfl, hgo, ?_⟩
      rw [same a List.mem_cons_self]
      exact ih hrest fun y hy => same y (List.mem_cons_of_mem _ hy)

/-- A longer list: the last node links to a new one, which ends the list. -/
theorem concat {x : α} (hx : Linked next stop a xs) (hne : xs ≠ []) (nodup : xs.Nodup)
    (same : ∀ y ∈ xs, y ≠ xs.getLast hne → next' y = next y)
    (hlast : next' (xs.getLast hne) = x) (hgo : ¬ stop x) (hstop : stop (next' x)) :
    Linked next' stop a (xs ++ [x]) := by
  induction xs generalizing a with
  | nil => exact absurd rfl hne
  | cons y ys ih =>
      obtain ⟨rfl, hy, hrest⟩ := hx
      refine ⟨rfl, hy, ?_⟩
      cases ys with
      | nil =>
          rw [List.getLast_singleton] at hlast
          rw [hlast]
          exact ⟨rfl, hgo, hstop⟩
      | cons z zs =>
          have hlater : (z :: zs).getLast (List.cons_ne_nil z zs) ∈ z :: zs := List.getLast_mem _
          have hfirst : a ≠ (z :: zs).getLast (List.cons_ne_nil z zs) := fun heq =>
            (List.nodup_cons.mp nodup).1 (heq ▸ hlater)
          rw [same a List.mem_cons_self (by rwa [List.getLast_cons_cons])]
          refine ih hrest (List.cons_ne_nil z zs) (List.nodup_cons.mp nodup).2 ?_ ?_
          · intro w hw hne'
            exact same w (List.mem_cons_of_mem _ hw) (by rwa [List.getLast_cons_cons])
          · rwa [List.getLast_cons_cons] at hlast

/-- The link of a node is the next node, or a stop at the last one. -/
theorem next_getElem (hx : Linked next stop a xs) {i : Nat} (hi : i < xs.length) :
    (∀ h : i + 1 < xs.length, next xs[i] = xs[i + 1] ∧ ¬ stop (next xs[i])) ∧
      (i + 1 = xs.length → stop (next xs[i])) := by
  induction xs generalizing a i with
  | nil => exact absurd hi (Nat.not_lt_zero _)
  | cons y ys ih =>
      obtain ⟨rfl, -, hrest⟩ := hx
      cases i with
      | zero =>
          cases ys with
          | nil => exact ⟨fun h => absurd h (by simp), fun _ => hrest⟩
          | cons z zs => exact ⟨fun _ => ⟨hrest.1, hrest.2.1⟩, fun h => by simp at h⟩
      | succ i =>
          obtain ⟨hnext, hend⟩ := ih hrest (by simpa using hi)
          exact ⟨fun h => hnext (by simpa using h), fun h => hend (by simpa using h)⟩

theorem head_eq (hx : Linked next stop a xs) (hne : xs ≠ []) : xs.head hne = a := by
  cases xs with
  | nil => exact absurd rfl hne
  | cons x xs => exact hx.1.symm

end Linked

end Lib
