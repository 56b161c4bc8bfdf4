/-
MultiStorageClient/LinkedList.lean

Doubly linked lists whose links are two maps.

`Linked next prev p l n` says that the elements of `l` are linked in this order,
behind `p` and before `n`.  A list is cut and joined by `linked_append`, and a
change of the links around an element is a change of the list (`Linked.remove`,
`Linked.concat`).
-/
import Mathlib

namespace LinkedList

variable {ι : Type} {next prev next' prev' : ι → ι} {p n x : ι} {l l₁ l₂ : List ι}

/-- The elements of a list are linked, behind `p` and before `n`. -/
def Linked (next prev : ι → ι) : ι → List ι → ι → Prop
  | _, [], _ => True
  | p, x :: l, n => prev x = p ∧ next x = l.headD n ∧ Linked next prev x l n

@[simp] theorem linked_nil : Linked next prev p [] n := trivial

@[simp] theorem linked_singleton : Linked next prev p [x] n ↔ prev x = p ∧ next x = n := by
  simp [Linked]

theorem headD_append (l₁ l₂ : List ι) (n : ι) : (l₁ ++ l₂).headD n = l₁.headD (l₂.headD n) := by
  cases l₁ <;> rfl

/-- **A list is cut** where the first part ends. -/
theorem linked_append : Linked next prev p (l₁ ++ l₂) n ↔
    Linked next prev p l₁ (l₂.headD n) ∧ Linked next prev (l₁.getLastD p) l₂ n := by
  induction l₁ generalizing p with
  | nil => simp
  | cons x l₁ ih =>
      rw [List.cons_append, List.getLastD_cons]
      show prev x = p ∧ next x = (l₁ ++ l₂).headD n ∧ Linked next prev x (l₁ ++ l₂) n ↔ _
      rw [ih, headD_append, ← and_assoc, ← and_assoc, and_assoc (c := Linked _ _ _ l₁ _)]
      rfl

/-- Links elsewhere do not matter. -/
theorem Linked.congr (h : Linked next prev p l n) (hnext : ∀ y ∈ l, next' y = next y)
    (hprev : ∀ y ∈ l, prev' y = prev y) : Linked next' prev' p l n := by
  induction l generalizing p with
  | nil => trivial
  | cons x l ih =>
      obtain ⟨h₁, h₂, h₃⟩ := h
      refine ⟨(hprev x (List.mem_cons_self ..)).trans h₁,
        (hnext x (List.mem_cons_self ..)).trans h₂, ih h₃ (fun y hy => ?_) fun y hy => ?_⟩
      · exact hnext y (List.mem_cons_of_mem x hy)
      · exact hprev y (List.mem_cons_of_mem x hy)

/-- **The links give the list back**, from its first element and its length. -/
theorem Linked.unique {p' n' : ι} {l' : List ι} (h : Linked next prev p l n)
    (h' : Linked next prev' p' l' n') (hlen : l.length = l'.length)
    (hhead : l.headD n = l'.headD n') : l = l' := by
  induction l generalizing p l' p' with
  | nil => exact (List.length_eq_zero_iff.mp hlen.symm).symm
  | cons x l ih =>
      cases l' with
      | nil => cases hlen
      | cons x' l' =>
          obtain rfl : x = x' := hhead
          obtain ⟨-, hx, h⟩ := h
          obtain ⟨-, hx', h'⟩ := h'
          rw [ih h h' (Nat.succ.inj hlen) (hx.symm.trans hx')]

/-- The last element gets another one behind it. -/
theorem Linked.setNext (h : Linked next prev p l n) (hnodup : l.Nodup) (m : ι)
    (hlast : ∀ y, l.getLast? = some y → next' y = m)
    (hnext : ∀ y ∈ l, l.getLast? ≠ some y → next' y = next y) : Linked next' prev p l m := by
  rcases List.eq_nil_or_concat l with rfl | ⟨l, x, rfl⟩
  · trivial
  · rw [List.concat_eq_append] at *
    have hx : x ∉ l := fun hmem =>
      (List.nodup_append.mp hnodup).2.2 x hmem x (List.mem_singleton_self x) rfl
    rw [linked_append] at h ⊢
    obtain ⟨hl, hx'⟩ := h
    refine ⟨hl.congr (fun y hy => hnext y (List.mem_append_left _ hy) ?_) fun _ _ => rfl, ?_⟩
    · rw [List.getLast?_concat]
      rintro ⟨⟩
      exact hx hy
    · rw [linked_singleton] at hx' ⊢
      exact ⟨hx'.1, hlast x List.getLast?_concat⟩

/-- The first element gets another one before it. -/
theorem Linked.setPrev (h : Linked next prev p l n) (hnodup : l.Nodup) (m : ι)
    (hhead : ∀ y, l.head? = some y → prev' y = m)
    (hprev : ∀ y ∈ l, l.head? ≠ some y → prev' y = prev y) : Linked next prev' m l n := by
  cases l with
  | nil => trivial
  | cons x l =>
      obtain ⟨-, h₂, h₃⟩ := h
      refine ⟨hhead x rfl, h₂, h₃.congr (fun _ _ => rfl) fun y hy =>
        hprev y (List.mem_cons_of_mem x hy) ?_⟩
      rintro ⟨⟩
      exact (List.nodup_cons.mp hnodup).1 hy

/-- **An element is taken out**: its neighbours become neighbours. -/
theorem Linked.remove (h : Linked next prev p (l₁ ++ x :: l₂) n) (hnodup : (l₁ ++ x :: l₂).Nodup)
    (hlast : ∀ y, l₁.getLast? = some y → next' y = l₂.headD n)
    (hnext : ∀ y ∈ l₁ ++ l₂, l₁.getLast? ≠ some y → next' y = next y)
    (hhead : ∀ y, l₂.head? = some y → prev' y = l₁.getLastD p)
    (hprev : ∀ y ∈ l₁ ++ l₂, l₂.head? ≠ some y → prev' y = prev y) :
    Linked next' prev' p (l₁ ++ l₂) n := by
  obtain ⟨h₁, h₂⟩ := linked_append.mp h
  obtain ⟨hd₁, hd₂, hdis⟩ := List.nodup_append.mp hnodup
  have hne₁ : ∀ y ∈ l₁, l₂.head? ≠ some y := fun y hy hc =>
    hdis y hy y (List.mem_cons_of_mem x (List.mem_of_head? hc)) rfl
  have hne₂ : ∀ y ∈ l₂, l₁.getLast? ≠ some y := fun y hy hc =>
    hdis y (List.mem_of_getLast? hc) y (List.mem_cons_of_mem x hy) rfl
  refine linked_append.mpr ⟨?_, ?_⟩
  · refine (h₁.setNext hd₁ _ hlast fun y hy => hnext y (List.mem_append_left _ hy)).congr
      (fun _ _ => rfl) fun y hy => ?_
    exact hprev y (List.mem_append_left _ hy) (hne₁ y hy)
  · refine (h₂.2.2.setPrev (List.nodup_cons.mp hd₂).2 _ hhead fun y hy =>
      hprev y (List.mem_append_right _ hy)).congr (fun y hy => ?_) fun _ _ => rfl
    exact hnext y (List.mem_append_right _ hy) (hne₂ y hy)

/-- **An element is put behind the last one.** -/
theorem Linked.concat (h : Linked next prev p l n) (hnodup : l.Nodup)
    (hlast : ∀ y, l.getLast? = some y → next' y = x)
    (hnext : ∀ y ∈ l, l.getLast? ≠ some y → next' y = next y)
    (hprev : ∀ y ∈ l, prev' y = prev y) (hx : prev' x = l.getLastD p ∧ next' x = n) :
    Linked next' prev' p (l ++ [x]) n :=
  linked_append.mpr ⟨(h.setNext hnodup x hlast hnext).congr (fun _ _ => rfl) hprev,
    linked_singleton.mpr hx⟩

end LinkedList
