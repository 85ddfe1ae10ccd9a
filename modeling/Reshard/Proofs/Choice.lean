import Mathlib.Data.List.Induction
import Reshard.Choice
import Reshard.Key

/-!
What a scan chooses. If of two different elements always one beats the other, then the choice is the
one element that beats all others (`choose_eq_some`), and the order of the list makes no difference
to it (`choose_image`).
-/

namespace Reshard

section

variable {α β : Type} {beats : α → α → Bool} {l : List α}

/-- Of two different elements exactly one beats the other, and this is a ranking. -/
structure Decisive (beats : α → α → Bool) (l : List α) : Prop where
  total : ∀ x ∈ l, ∀ y ∈ l, x ≠ y → (beats x y = true ↔ ¬ beats y x = true)
  trans : ∀ x ∈ l, ∀ y ∈ l, ∀ z ∈ l, x ≠ y → y ≠ z → x ≠ z →
    beats x y = true → beats y z = true → beats x z = true

theorem Decisive.mono (h : Decisive beats l) {l' : List α} (hsub : l' ⊆ l) :
    Decisive beats l' where
  total x hx y hy := h.total x (hsub hx) y (hsub hy)
  trans x hx y hy z hz := h.trans x (hsub hx) y (hsub hy) z (hsub hz)

theorem choose_concat (l : List α) (x : α) :
    choose beats (l ++ [x]) =
      match choose beats l with
      | none => some x
      | some b => if beats x b then some x else some b := by
  rw [choose, List.foldl_append]
  rfl

theorem mem_of_choose {r : α} (h : choose beats l = some r) : r ∈ l := by
  induction l using List.reverseRecOn generalizing r with
  | nil => nomatch h
  | append_singleton init x ih =>
    rw [choose_concat] at h
    cases hb : choose beats init with
    | none =>
      rw [hb] at h
      cases h
      simp
    | some b =>
      rw [hb] at h
      dsimp only at h
      split at h
      · cases h
        simp
      · cases h
        exact List.mem_append_left _ (ih hb)

theorem choose_eq_none_iff : choose beats l = none ↔ l = [] := by
  induction l using List.reverseRecOn with
  | nil => exact iff_of_true rfl rfl
  | append_singleton init x _ =>
    refine iff_of_false (fun h => ?_)
      (List.append_ne_nil_of_right_ne_nil init (List.cons_ne_nil x []))
    rw [choose_concat] at h
    split at h
    · nomatch h
    · split at h <;> nomatch h

/-- A list that is not empty has a best element, and this is chosen. -/
theorem exists_choose (h : Decisive beats l) (hl : l ≠ []) :
    ∃ r ∈ l, choose beats l = some r ∧ ∀ y ∈ l, y ≠ r → beats r y = true := by
  induction l using List.reverseRecOn with
  | nil => exact absurd rfl hl
  | append_singleton init x ih =>
    have hx : x ∈ init ++ [x] := by simp
    rw [choose_concat]
    rcases eq_or_ne init [] with rfl | hinit
    · exact ⟨x, hx, rfl, by simp⟩
    obtain ⟨b, hb, hchoose, hbest⟩ := ih (h.mono (List.subset_append_left _ _)) hinit
    have hb' : b ∈ init ++ [x] := List.mem_append_left _ hb
    rw [hchoose]
    dsimp only
    by_cases hbeats : beats x b = true
    · refine ⟨x, hx, if_pos hbeats, ?_⟩
      intro y hy hyx
      rcases List.mem_append.mp hy with hy' | hy'
      · rcases eq_or_ne y b with rfl | hyb
        · exact hbeats
        rcases eq_or_ne x b with rfl | hxb
        · exact hbest y hy' hyb
        · exact h.trans x hx b hb' y hy hxb (Ne.symm hyb) (Ne.symm hyx) hbeats (hbest y hy' hyb)
      · exact absurd (List.mem_singleton.mp hy') hyx
    · refine ⟨b, hb', if_neg hbeats, ?_⟩
      intro y hy hyb
      rcases List.mem_append.mp hy with hy' | hy'
      · exact hbest y hy' hyb
      · rw [List.mem_singleton.mp hy'] at hyb ⊢
        exact (h.total b hb' x hx (Ne.symm hyb)).mpr hbeats

theorem choose_eq_some (h : Decisive beats l) {r : α} (hr : r ∈ l)
    (hbest : ∀ y ∈ l, y ≠ r → beats r y = true) : choose beats l = some r := by
  obtain ⟨r', hr', hchoose, hbest'⟩ := exists_choose h (List.ne_nil_of_mem hr)
  rcases eq_or_ne r' r with rfl | hne
  · exact hchoose
  · have hwins := hbest r' hr' hne
    rw [h.total r hr r' hr' (Ne.symm hne)] at hwins
    exact absurd (hbest' r hr (Ne.symm hne)) hwins

/-- Whatever stands for the elements, and in whatever order, what stands for the best is chosen. -/
theorem choose_image {beats' : β → β → Bool} {l' : List β} (h : Decisive beats l)
    (f : α → β) (hmem : ∀ y, y ∈ l' ↔ ∃ x ∈ l, f x = y)
    (hbeats : ∀ x ∈ l, ∀ y ∈ l, x ≠ y → beats' (f x) (f y) = beats x y) :
    choose beats' l' = (choose beats l).map f := by
  have hfmem : ∀ x ∈ l, f x ∈ l' := fun x hx => (hmem _).mpr ⟨x, hx, rfl⟩
  have h' : Decisive beats' l' := by
    constructor
    · intro x' hx' y' hy' hne
      obtain ⟨x, hx, rfl⟩ := (hmem x').mp hx'
      obtain ⟨y, hy, rfl⟩ := (hmem y').mp hy'
      have hxy : x ≠ y := fun heq => hne (congrArg f heq)
      rw [hbeats x hx y hy hxy, hbeats y hy x hx (Ne.symm hxy)]
      exact h.total x hx y hy hxy
    · intro x' hx' y' hy' z' hz' hxy hyz hxz hbxy hbyz
      obtain ⟨x, hx, rfl⟩ := (hmem x').mp hx'
      obtain ⟨y, hy, rfl⟩ := (hmem y').mp hy'
      obtain ⟨z, hz, rfl⟩ := (hmem z').mp hz'
      have hxy' : x ≠ y := fun heq => hxy (congrArg f heq)
      have hyz' : y ≠ z := fun heq => hyz (congrArg f heq)
      have hxz' : x ≠ z := fun heq => hxz (congrArg f heq)
      rw [hbeats x hx y hy hxy'] at hbxy
      rw [hbeats y hy z hz hyz'] at hbyz
      rw [hbeats x hx z hz hxz']
      exact h.trans x hx y hy z hz hxy' hyz' hxz' hbxy hbyz
  rcases eq_or_ne l [] with rfl | hl
  · have hl' : l' = [] := by
      rw [List.eq_nil_iff_forall_not_mem]
      intro y hy
      obtain ⟨x, hx, -⟩ := (hmem y).mp hy
      nomatch hx
    rw [hl']
    rfl
  · obtain ⟨r, hr, hchoose, hbest⟩ := exists_choose h hl
    rw [hchoose]
    refine choose_eq_some h' (hfmem r hr) ?_
    intro y' hy' hne
    obtain ⟨y, hy, rfl⟩ := (hmem y').mp hy'
    have hyr : y ≠ r := fun heq => hne (congrArg f heq)
    rw [hbeats r hr y hy (Ne.symm hyr)]
    exact hbest y hy hyr

end

/-! ## Keys -/

theorem Key.lt_trans {a b c : Key} (hab : a < b) (hbc : b < c) : a < c :=
  Std.TransCmp.lt_trans hab hbc

theorem Key.lt_asymm {a b : Key} (h : a < b) : ¬ b < a := by
  intro h'
  have hself := Key.lt_trans h h'
  rw [Key.lt_iff, Std.compare_eq_iff_eq.mpr rfl] at hself
  nomatch hself

theorem Key.lt_or_lt {a b : Key} (h : a ≠ b) : a < b ∨ b < a := by
  cases hab : compare a b with
  | lt => exact .inl hab
  | eq => exact absurd (Std.compare_eq_iff_eq.mp hab) h
  | gt =>
    right
    rw [Key.lt_iff, Std.OrientedOrd.eq_swap, hab]
    rfl

end Reshard
