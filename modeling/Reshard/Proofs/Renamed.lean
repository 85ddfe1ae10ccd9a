import Mathlib.Data.List.Nodup
import Mathlib.Data.List.Perm.Basic
import Mathlib.Logic.Equiv.Defs
import Reshard.Proofs.Collections

/-!
Maps and sets whose keys are renamed. Their lists hold the renamed entries, in another order; what
is computed of them is the same if the order of the entries makes no difference.
-/

namespace Reshard

namespace Collections

section

variable {α β : Type} [Ord α] [Std.TransOrd α] [Std.LawfulEqOrd α] (σ : Equiv.Perm α)

theorem nodup_toList_map (m : Std.ExtTreeMap α β) : m.toList.Nodup := by
  have hkeys := nodup_keys m
  rw [← Std.ExtTreeMap.map_fst_toList_eq_keys] at hkeys
  exact hkeys.of_map _

/-- The entries of a renamed map. -/
theorem perm_toList {m m' : Std.ExtTreeMap α β} (h : ∀ a, m'[σ a]? = m[a]?) :
    m'.toList.Perm (m.toList.map fun e => (σ e.1, e.2)) := by
  have hinj : Function.Injective fun e : α × β => (σ e.1, e.2) := by
    rintro ⟨a, b⟩ ⟨a', b'⟩ heq
    simpa using heq
  rw [List.perm_ext_iff_of_nodup (nodup_toList_map m') (List.Nodup.map hinj (nodup_toList_map m))]
  rintro ⟨a, b⟩
  rw [Std.ExtTreeMap.mem_toList_iff_getElem?_eq_some, List.mem_map]
  constructor
  · intro hb
    refine ⟨(σ.symm a, b), ?_, by simp⟩
    rw [Std.ExtTreeMap.mem_toList_iff_getElem?_eq_some, ← h, Equiv.apply_symm_apply, hb]
  · rintro ⟨⟨c, b'⟩, hc, heq⟩
    cases heq
    rw [h]
    exact Std.ExtTreeMap.mem_toList_iff_getElem?_eq_some.mp hc

/-- The elements of a renamed set. -/
theorem perm_toList_set {s s' : Std.ExtTreeSet α} (h : ∀ a, σ a ∈ s' ↔ a ∈ s) :
    s'.toList.Perm (s.toList.map σ) := by
  rw [List.perm_ext_iff_of_nodup (nodup_toList s') (List.Nodup.map σ.injective (nodup_toList s))]
  intro a
  rw [Std.ExtTreeSet.mem_toList, List.mem_map]
  constructor
  · intro ha
    refine ⟨σ.symm a, ?_, by simp⟩
    rw [Std.ExtTreeSet.mem_toList, ← h, Equiv.apply_symm_apply]
    exact ha
  · rintro ⟨b, hb, rfl⟩
    rw [h]
    exact Std.ExtTreeSet.mem_toList.mp hb

theorem size_eq_of_renamed {s s' : Std.ExtTreeSet α} (h : ∀ a, σ a ∈ s' ↔ a ∈ s) :
    s'.size = s.size := by
  have hlength := (perm_toList_set σ h).length_eq
  simpa using hlength

/-- Two entries are changed in either order. -/
theorem alter_comm (m : Std.ExtTreeMap α β) (a b : α)
    {f g : Option β → Option β} (hsame : ∀ x, f (g x) = g (f x)) :
    (m.alter a f).alter b g = (m.alter b g).alter a f := by
  apply Std.ExtTreeMap.ext_getElem?
  intro k
  simp only [Std.ExtTreeMap.getElem?_alter, Std.compare_eq_iff_eq]
  by_cases hak : a = k <;> by_cases hbk : b = k <;> simp [hak, hbk, hsame]

end

end Collections

end Reshard
