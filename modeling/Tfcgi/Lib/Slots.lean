import Mathlib.Data.List.Perm.Subperm
import Mathlib.Data.List.Nodup

/-!
# Lists whose entries are replaced in place

Threads, connections and request slots are entries of lists that keep their
index. These lemmas say what replacing one entry does to what is collected from
the list or counted in it.

* `filterMap_set_perm`: replacing an entry exchanges what it contributes;
* `total_set`: the same for a sum over the list;
* `length_le_countP`: different indices of entries with a property are at most
  as many as there are such entries.
-/

namespace Tfcgi.Slots

variable {α β : Type}

theorem filterMap_cons_toList (f : α → Option β) (a : α) (l : List α) :
    (a :: l).filterMap f = (f a).toList ++ l.filterMap f := by
  cases h : f a with
  | none => simp [h]
  | some b => simp [h]

theorem filterMap_set_perm (f : α → Option β) {l : List α} {i : Nat} {a : α} (b : α)
    (h : l[i]? = some a) :
    ((f a).toList ++ (l.set i b).filterMap f).Perm ((f b).toList ++ l.filterMap f) := by
  obtain ⟨hi, rfl⟩ := List.getElem?_eq_some_iff.mp h
  have hset : ((l.set i b).filterMap f).Perm ((f b).toList ++ (l.eraseIdx i).filterMap f) := by
    rw [← filterMap_cons_toList]
    exact (List.set_perm_cons_eraseIdx hi b).filterMap f
  have hget : (l.filterMap f).Perm ((f l[i]).toList ++ (l.eraseIdx i).filterMap f) := by
    rw [← filterMap_cons_toList]
    exact ((List.getElem_cons_eraseIdx_perm hi).filterMap f).symm
  calc ((f l[i]).toList ++ (l.set i b).filterMap f).Perm
        ((f l[i]).toList ++ ((f b).toList ++ (l.eraseIdx i).filterMap f)) := hset.append_left _
    _ |>.Perm ((f b).toList ++ ((f l[i]).toList ++ (l.eraseIdx i).filterMap f)) := by
        rw [← List.append_assoc, ← List.append_assoc]
        exact List.perm_append_comm.append_right _
    _ |>.Perm ((f b).toList ++ l.filterMap f) := hget.symm.append_left _

theorem filterMap_set_same {f : α → Option β} {l : List α} {i : Nat} {a b : α}
    (h : l[i]? = some a) (he : f b = f a) : (l.set i b).filterMap f = l.filterMap f := by
  induction l generalizing i with
  | nil => rfl
  | cons x l ih =>
    cases i with
    | zero =>
      simp only [List.getElem?_cons_zero, Option.some.injEq] at h
      subst h
      simp only [List.set_cons_zero, List.filterMap_cons, he]
    | succ i =>
      simp only [List.getElem?_cons_succ] at h
      simp only [List.set_cons_succ, List.filterMap_cons, ih h]

theorem mem_set_of_ne {l : List α} {i : Nat} {a b x : α} (hi : l[i]? = some a) (hx : x ∈ l)
    (hne : x ≠ a) : x ∈ l.set i b := by
  obtain ⟨k, hk⟩ := List.getElem?_of_mem hx
  apply List.mem_of_getElem? (i := k)
  rw [List.getElem?_set_ne, hk]
  rintro rfl
  rw [hi] at hk
  cases hk
  exact hne rfl

/-- An entry is known by what it contributes when all contributions differ. -/
theorem filterMap_unique {f : α → Option β} {l : List α} (hn : (l.filterMap f).Nodup) {a a' : α}
    {b : β} (ha : a ∈ l) (ha' : a' ∈ l) (hb : f a = some b) (hb' : f a' = some b) : a = a' := by
  induction l with
  | nil => cases ha
  | cons x l ih =>
    rw [filterMap_cons_toList] at hn
    have hmem : ∀ y ∈ l, f y = some b → f x ≠ some b := by
      intro y hy hfy hfx
      rw [hfx] at hn
      exact (List.nodup_cons.mp hn).1 (List.mem_filterMap.mpr ⟨y, hy, hfy⟩)
    rcases List.mem_cons.mp ha with rfl | hl
    · rcases List.mem_cons.mp ha' with rfl | hl'
      · rfl
      · exact absurd hb (hmem a' hl' hb')
    · rcases List.mem_cons.mp ha' with rfl | hl'
      · exact absurd hb' (hmem a hl hb)
      · exact ih hn.of_append_right hl hl'

theorem countP_set_add (q : α → Bool) {l : List α} {i : Nat} {a : α} (b : α) (h : l[i]? = some a) :
    (l.set i b).countP q + (q a).toNat = l.countP q + (q b).toNat := by
  induction l generalizing i with
  | nil => cases h
  | cons x l ih =>
    cases i with
    | zero =>
      simp only [List.getElem?_cons_zero, Option.some.injEq] at h
      subst h
      simp only [List.set_cons_zero, List.countP_cons]
      cases q x <;> cases q b <;> simp
    | succ i =>
      simp only [List.getElem?_cons_succ] at h
      have := ih h
      simp only [List.set_cons_succ, List.countP_cons]
      omega

theorem countP_set_eq {q : α → Bool} {l : List α} {i : Nat} {a b : α} (h : l[i]? = some a)
    (he : q b = q a) : (l.set i b).countP q = l.countP q := by
  have hadd := countP_set_add q b h
  rw [he] at hadd
  omega

theorem countP_range_getElem? (q : α → Bool) (l : List α) :
    (List.range l.length).countP (fun k => (l[k]?).any q) = l.countP q := by
  induction l with
  | nil => rfl
  | cons a l ih =>
    rw [List.length_cons, List.range_succ_eq_map, List.countP_cons, List.countP_map,
      List.countP_cons, ← ih]
    rfl

theorem length_le_countP {q : α → Bool} {l : List α} {ks : List Nat} (hn : ks.Nodup)
    (h : ∀ k ∈ ks, ∃ a, l[k]? = some a ∧ q a = true) : ks.length ≤ l.countP q := by
  rw [← countP_range_getElem? q l, List.countP_eq_length_filter]
  apply List.Subperm.length_le
  apply List.subperm_of_subset hn
  intro k hk
  obtain ⟨a, ha, hq⟩ := h k hk
  rw [List.mem_filter, List.mem_range]
  exact ⟨(List.getElem?_eq_some_iff.mp ha).1, by rw [ha]; exact hq⟩

/-- The sum of `f` over a list. -/
def total (f : α → Nat) : List α → Nat
  | [] => 0
  | a :: l => f a + total f l

theorem total_set (f : α → Nat) {l : List α} {i : Nat} {a : α} (b : α) (h : l[i]? = some a) :
    total f (l.set i b) + f a = total f l + f b := by
  induction l generalizing i with
  | nil => cases h
  | cons x l ih =>
    cases i with
    | zero =>
      simp only [List.getElem?_cons_zero, Option.some.injEq] at h
      subst h
      simp only [List.set_cons_zero, total]
      omega
    | succ i =>
      simp only [List.getElem?_cons_succ] at h
      have := ih h
      simp only [List.set_cons_succ, total]
      omega

end Tfcgi.Slots
