import Reshard.Proofs.Choice
import Reshard.Proofs.Ordered

/-!
What it means to select the best of some candidates. Candidates are ranked by a weight and by a
name, which settles ties (`Precedes`), and the best one is the only one that no other is better than
(`Picks`). A scan selects it, whichever way its comparison goes about ties, if it agrees with the
ranks on each candidate and those in front of it (`picks_choose`).
-/

namespace Reshard

open Weight

instance : IsStrictTotalOrder Key (· < ·) where
  trichotomous a b hab hba := by
    by_contra hne
    exact (Key.lt_or_lt hne).elim hab hba
  irrefl _ h := Key.lt_asymm h h
  trans _ _ _ := Key.lt_trans

/-! ## Ranks -/

/-- A weight that is to be preferred, or an equal one and the lower name. -/
def Precedes {W K : Type} [Weight W] [LT K] (preferred : W → W → Prop) (a b : W × K) : Prop :=
  preferred a.1 b.1 ∨ ((a.1 == b.1) = true ∧ a.2 < b.2)

theorem precedes_iff_of_not_lt {W K : Type} [Weight W] [LT K] {preferred : W → W → Prop}
    {a b : W × K} (h : ¬ a.2 < b.2) : Precedes preferred a b ↔ preferred a.1 b.1 :=
  or_iff_left fun heq => h heq.2

/-- The weights that are numbers are ranked, upwards or downwards. -/
structure Ranking {W : Type} [Weight W] (preferred : W → W → Prop) : Prop where
  asymm : ∀ {a b : W}, IsNumber a → IsNumber b → preferred a b → ¬ preferred b a
  between : ∀ {a b c : W}, IsNumber a → IsNumber b → IsNumber c → preferred a c →
    preferred a b ∨ preferred b c
  beq_iff : ∀ {a b : W}, IsNumber a → IsNumber b →
    ((a == b) = true ↔ ¬ preferred a b ∧ ¬ preferred b a)

section

variable {W K : Type} [Weight W] [Weight.Ordered W]

theorem ranking_lt : Ranking (fun a b : W => a < b) where
  asymm := lt_asymm
  between := lt_or_lt
  beq_iff := beq_iff_not_lt

theorem ranking_gt : Ranking (fun a b : W => b < a) where
  asymm ha hb := lt_asymm hb ha
  between ha hb hc h := (lt_or_lt hc hb ha h).symm
  beq_iff ha hb := (beq_iff_not_lt ha hb).trans and_comm

end

section

variable {W K : Type} [Weight W] [LT K] [IsStrictTotalOrder K (· < ·)]
  {preferred : W → W → Prop} {a b c : W × K}

theorem Ranking.precedes_asymm (h : Ranking preferred) (ha : IsNumber a.1) (hb : IsNumber b.1)
    (hab : Precedes preferred a b) : ¬ Precedes preferred b a := by
  have hname : a.2 < b.2 → ¬ b.2 < a.2 := asymm_of (· < ·)
  have hweight : preferred a.1 b.1 → ¬ preferred b.1 a.1 := h.asymm ha hb
  rw [Precedes, h.beq_iff ha hb] at hab
  rw [Precedes, h.beq_iff hb ha]
  tauto

/-- Of two candidates with different names one precedes the other. -/
theorem Ranking.precedes_iff (h : Ranking preferred) (ha : IsNumber a.1) (hb : IsNumber b.1)
    (hne : a.2 ≠ b.2) : Precedes preferred a b ↔ ¬ Precedes preferred b a := by
  refine ⟨h.precedes_asymm ha hb, fun hnot => ?_⟩
  have hname : a.2 < b.2 ∨ b.2 < a.2 := by
    rcases trichotomous_of (· < ·) a.2 b.2 with hlt | heq | hgt
    · exact .inl hlt
    · exact absurd heq hne
    · exact .inr hgt
  rw [Precedes, h.beq_iff hb ha] at hnot
  rw [Precedes, h.beq_iff ha hb]
  tauto

theorem Ranking.precedes_trans (h : Ranking preferred) (ha : IsNumber a.1) (hb : IsNumber b.1)
    (hc : IsNumber c.1) (hab : Precedes preferred a b) (hbc : Precedes preferred b c) :
    Precedes preferred a c := by
  rw [Precedes, h.beq_iff ha hb] at hab
  rw [Precedes, h.beq_iff hb hc] at hbc
  rw [Precedes, h.beq_iff ha hc]
  rcases hab with hab | ⟨⟨hab, hba⟩, hname⟩
  · have hcb : ¬ preferred c.1 b.1 := by
      rcases hbc with hbc | ⟨⟨-, hcb⟩, -⟩
      · exact h.asymm hb hc hbc
      · exact hcb
    exact .inl ((h.between ha hc hb hab).resolve_right hcb)
  · rcases hbc with hbc | ⟨⟨hbc, hcb⟩, hname'⟩
    · exact .inl ((h.between hb ha hc hbc).resolve_left hba)
    · refine .inr ⟨⟨fun hac => ?_, fun hca => ?_⟩, trans_of (· < ·) hname hname'⟩
      · exact (h.between ha hb hc hac).elim hab hbc
      · exact (h.between hc hb ha hca).elim hcb hba

end

/-! ## The best candidate -/

/-- The selected one, if any, is the only candidate that no other is better than. -/
structure Picks {β : Type} (candidate : β → Prop) (better : β → β → Prop)
    (r : Option β) : Prop where
  none_iff : r = none ↔ ∀ b, ¬ candidate b
  some_iff : ∀ a, r = some a ↔ candidate a ∧ ∀ b, candidate b → b ≠ a → ¬ better b a

section

variable {α β : Type}

/-- A scan compares each element with those in front of it only. -/
theorem choose_congr {beats beats' : α → α → Bool} {l : List α}
    (h : l.Pairwise fun b x => beats x b = beats' x b) : choose beats l = choose beats' l := by
  induction l using List.reverseRecOn with
  | nil => rfl
  | append_singleton init x ih =>
    obtain ⟨hinit, -, hlast⟩ := List.pairwise_append.mp h
    rw [choose_concat, choose_concat, ← ih hinit]
    cases hb : choose beats init with
    | none => rfl
    | some b => simp only [hlast b (mem_of_choose hb) x List.mem_cons_self]

theorem picks_of_decisive {beats : α → α → Bool} {l : List α} (h : Decisive beats l) :
    Picks (· ∈ l) (fun a b => beats a b = true) (choose beats l) := by
  constructor
  · rw [choose_eq_none_iff, List.eq_nil_iff_forall_not_mem]
  · intro a
    constructor
    · intro ha
      have hmem := mem_of_choose ha
      obtain ⟨r, -, hchoose, hbest⟩ := exists_choose h (List.ne_nil_of_mem hmem)
      cases ha.symm.trans hchoose
      exact ⟨hmem, fun b hb hne => (h.total a hmem b hb hne.symm).mp (hbest b hb hne)⟩
    · rintro ⟨ha, hunbeaten⟩
      refine choose_eq_some h ha fun b hb hne => ?_
      exact (h.total a ha b hb hne.symm).mpr (hunbeaten b hb hne)

variable {candidate : β → Prop} {better : β → β → Prop}

/-- The candidates may be known by something else than what is scanned. -/
theorem Picks.map {before : α → α → Prop} {l : List α} {r : Option α}
    (h : Picks (· ∈ l) before r)
    {f : α → β} (hinj : ∀ x ∈ l, ∀ y ∈ l, f x = f y → x = y)
    (hcandidate : ∀ b, candidate b ↔ ∃ x ∈ l, f x = b)
    (hbetter : ∀ x ∈ l, ∀ y ∈ l, better (f x) (f y) ↔ before x y) :
    Picks candidate better (r.map f) := by
  constructor
  · rw [Option.map_eq_none_iff, h.none_iff]
    simp only [hcandidate]
    exact ⟨fun hnone b ⟨x, hx, _⟩ => hnone x hx,
      fun hnone x hx => hnone (f x) ⟨x, hx, rfl⟩⟩
  · intro b
    rw [Option.map_eq_some_iff]
    constructor
    · rintro ⟨x, hr, rfl⟩
      obtain ⟨hx, hunbeaten⟩ := (h.some_iff x).mp hr
      refine ⟨(hcandidate _).mpr ⟨x, hx, rfl⟩, fun c hc hne => ?_⟩
      obtain ⟨y, hy, rfl⟩ := (hcandidate c).mp hc
      rw [hbetter y hy x hx]
      exact hunbeaten y hy fun heq => hne (congrArg f heq)
    · rintro ⟨hb, hunbeaten⟩
      obtain ⟨x, hx, rfl⟩ := (hcandidate b).mp hb
      refine ⟨x, (h.some_iff x).mpr ⟨hx, fun y hy hne => ?_⟩, rfl⟩
      rw [← hbetter y hy x hx]
      exact hunbeaten (f y) ((hcandidate _).mpr ⟨y, hy, rfl⟩) fun heq =>
        hne (hinj y hy x hx heq)

/-- More candidates make no difference, if something better than each was there before. -/
theorem Picks.enlarge {candidate' : β → Prop} {r : Option β} (h : Picks candidate better r)
    (hsubset : ∀ b, candidate b → candidate' b)
    (hasymm : ∀ a b, candidate' a → candidate' b → better a b → ¬ better b a)
    (htrans : ∀ a b c, candidate' a → candidate' b → candidate' c →
      better a b → better b c → better a c)
    (hbetter : ∀ b, candidate' b → ¬ candidate b → ∃ a, candidate a ∧ better a b) :
    Picks candidate' better r := by
  constructor
  · rw [h.none_iff]
    refine ⟨fun hnone b hb => ?_, fun hnone b hb => hnone b (hsubset b hb)⟩
    obtain ⟨a, ha, -⟩ := hbetter b hb (hnone b)
    exact hnone a ha
  · intro a
    rw [h.some_iff]
    constructor
    · rintro ⟨ha, hunbeaten⟩
      refine ⟨hsubset a ha, fun b hb hne hba => ?_⟩
      by_cases hold : candidate b
      · exact hunbeaten b hold hne hba
      · obtain ⟨c, hc, hcb⟩ := hbetter b hb hold
        have hca := htrans c b a (hsubset c hc) hb (hsubset a ha) hcb hba
        refine hunbeaten c hc (fun heq => ?_) hca
        exact hasymm c a (hsubset c hc) (hsubset a ha) hca (heq ▸ hca)
    · rintro ⟨ha, hunbeaten⟩
      have hold : candidate a := by
        by_contra hnew
        obtain ⟨c, hc, hca⟩ := hbetter a ha hnew
        exact hunbeaten c (hsubset c hc) (fun heq => hnew (heq ▸ hc)) hca
      exact ⟨hold, fun b hb hne => hunbeaten b (hsubset b hb) hne⟩

end

section

variable {W K α : Type} [Weight W] [LT K] [IsStrictTotalOrder K (· < ·)]
  {preferred : W → W → Prop} {l : List α}

theorem Ranking.decisive (hr : Ranking preferred) {beats : α → α → Bool}
    (rank : α → W × K)
    (hnumber : ∀ x ∈ l, IsNumber (rank x).1)
    (hname : ∀ x ∈ l, ∀ y ∈ l, x ≠ y → (rank x).2 ≠ (rank y).2)
    (hbeats : ∀ x ∈ l, ∀ y ∈ l, x ≠ y →
      (beats x y = true ↔ Precedes preferred (rank x) (rank y))) : Decisive beats l where
  total x hx y hy hne := by
    rw [hbeats x hx y hy hne, hbeats y hy x hx hne.symm]
    exact hr.precedes_iff (hnumber x hx) (hnumber y hy) (hname x hx y hy hne)
  trans x hx y hy z hz hxy hyz hxz := by
    rw [hbeats x hx y hy hxy, hbeats y hy z hz hyz, hbeats x hx z hz hxz]
    exact hr.precedes_trans (hnumber x hx) (hnumber y hy) (hnumber z hz)

/-- A scan picks by rank among elements of different names, if its comparison of an element with one
in front of it goes by their ranks. -/
theorem picks_choose (hr : Ranking preferred) {beats : α → α → Bool} (rank : α → W × K)
    (hnumber : ∀ x ∈ l, IsNumber (rank x).1)
    (hname : ∀ x ∈ l, ∀ y ∈ l, x ≠ y → (rank x).2 ≠ (rank y).2)
    (hbeats : l.Pairwise fun b x => (beats x b = true ↔ Precedes preferred (rank x) (rank b))) :
    Picks (· ∈ l) (fun a b => Precedes preferred (rank a) (rank b)) (choose beats l) := by
  classical
  let ranked : α → α → Bool := fun a b => decide (Precedes preferred (rank a) (rank b))
  have hsame : choose beats l = choose ranked l := by
    refine choose_congr (hbeats.imp fun h => ?_)
    rw [Bool.eq_iff_iff, decide_eq_true_eq]
    exact h
  have hdecisive : Decisive ranked l :=
    hr.decisive rank hnumber hname fun _ _ _ _ _ => decide_eq_true_iff
  rw [hsame]
  simpa only [ranked, decide_eq_true_eq] using picks_of_decisive hdecisive

end

end Reshard
