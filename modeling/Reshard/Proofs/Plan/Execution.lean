import Reshard.Plan

/-!
Moves carried out one after the other. A move is ready when every key that it covers is on its
source, and it leaves these keys on its destination. `executes_iff` reads an execution key by
key: the routes along which a key is moved lead from where it was to where it ends up.
-/

namespace Reshard

namespace Move

def route (m : Move) : PartitionId × PartitionId := (m.source, m.dest)

/-- Where the keys are after the move. -/
def carry (m : Move) (place : Key → Option PartitionId) : Key → Option PartitionId :=
  fun k => if m.covers k then some m.dest else place k

def Ready (m : Move) (place : Key → Option PartitionId) : Prop :=
  ∀ k, m.covers k = true → place k = some m.source

theorem covers_ofKeys {source dest : PartitionId} {ks : List Key} {k : Key} :
    (ofKeys source dest ks).covers k = true ↔ k ∈ ks := by
  simp [ofKeys, covers, Scope.covers]

end Move

/-- The moves take the keys from their places at the start to those at the finish, and each of
them is ready when it is its turn. -/
def Executes : List Move → (Key → Option PartitionId) → (Key → Option PartitionId) → Prop
  | [], start, finish => start = finish
  | m :: rest, start, finish => m.Ready start ∧ Executes rest (m.carry start) finish

theorem executes_append {xs ys : List Move} {start middle finish : Key → Option PartitionId}
    (hx : Executes xs start middle) (hy : Executes ys middle finish) :
    Executes (xs ++ ys) start finish := by
  induction xs generalizing start with
  | nil =>
    cases hx
    exact hy
  | cons m rest ih => exact ⟨hx.1, ih hx.2⟩

/-- The routes are a path from one place to another. -/
def Leads : List (PartitionId × PartitionId) → Option PartitionId → Option PartitionId → Prop
  | [], start, finish => start = finish
  | r :: rest, start, finish => start = some r.1 ∧ Leads rest (some r.2) finish

instance decidableLeads : ∀ (rs : List (PartitionId × PartitionId))
    (start finish : Option PartitionId), Decidable (Leads rs start finish)
  | [], start, finish => inferInstanceAs (Decidable (start = finish))
  | r :: rest, start, finish =>
    have := decidableLeads rest (some r.2) finish
    inferInstanceAs (Decidable (start = some r.1 ∧ Leads rest (some r.2) finish))

/-- The routes along which a key is moved, in the order of the moves. -/
def routesOf (k : Key) (ms : List Move) : List (PartitionId × PartitionId) :=
  (ms.filter (·.covers k)).map Move.route

theorem mem_routesOf {k : Key} {ms : List Move} {r : PartitionId × PartitionId} :
    r ∈ routesOf k ms ↔ ∃ m ∈ ms, m.covers k = true ∧ m.route = r := by
  simp [routesOf, and_assoc]

theorem routesOf_append (k : Key) (xs ys : List Move) :
    routesOf k (xs ++ ys) = routesOf k xs ++ routesOf k ys := by
  simp [routesOf]

/-- A move takes a key one step along its path, or leaves it alone. -/
theorem leads_routesOf_cons (k : Key) (m : Move) (rest : List Move)
    (place : Key → Option PartitionId) (finish : Option PartitionId) :
    Leads (routesOf k (m :: rest)) (place k) finish ↔
      (m.covers k = true → place k = some m.source) ∧
        Leads (routesOf k rest) (m.carry place k) finish := by
  by_cases hc : m.covers k = true
  · have hroutes : routesOf k (m :: rest) = m.route :: routesOf k rest := by
      simp [routesOf, hc]
    rw [hroutes, Leads, Move.carry, if_pos hc]
    simp [hc, Move.route]
  · have hroutes : routesOf k (m :: rest) = routesOf k rest := by
      simp [routesOf, hc]
    rw [hroutes, Move.carry, if_neg hc]
    simp [hc]

theorem executes_iff (ms : List Move) (start finish : Key → Option PartitionId) :
    Executes ms start finish ↔ ∀ k, Leads (routesOf k ms) (start k) (finish k) := by
  induction ms generalizing start with
  | nil => exact funext_iff
  | cons m rest ih =>
    rw [Executes, ih, Move.Ready, ← forall_and]
    apply forall_congr'
    intro k
    exact (leads_routesOf_cons k m rest start (finish k)).symm

/-! ## Moves to one destination -/

/-- Key lists that are taken from different sources to one destination do not get in each
other's way. -/
theorem executes_gather (dest : PartitionId) (keysAt : PartitionId → List Key)
    {sources : List PartitionId} (hnodup : sources.Nodup) (place : Key → Option PartitionId)
    (hplace : ∀ s ∈ sources, ∀ k ∈ keysAt s, place k = some s) :
    Executes (sources.map fun s => .ofKeys s dest (keysAt s)) place
      fun k => if ∃ s ∈ sources, k ∈ keysAt s then some dest else place k := by
  induction sources generalizing place with
  | nil =>
    funext k
    simp
  | cons s rest ih =>
    obtain ⟨hnot, hrest⟩ := List.nodup_cons.mp hnodup
    have hready : (Move.ofKeys s dest (keysAt s)).Ready place := by
      intro k hk
      exact hplace s List.mem_cons_self k (Move.covers_ofKeys.mp hk)
    have hcarry : ∀ k, (Move.ofKeys s dest (keysAt s)).carry place k =
        if k ∈ keysAt s then some dest else place k := by
      intro k
      simp only [Move.carry, Move.covers_ofKeys]
      rfl
    -- No key is taken twice: it would have to be on two sources at the start.
    have hleft : ∀ s' ∈ rest, ∀ k ∈ keysAt s',
        (Move.ofKeys s dest (keysAt s)).carry place k = some s' := by
      intro s' hs' k hk
      have hk' := hplace s' (List.mem_cons_of_mem s hs') k hk
      rw [hcarry, if_neg, hk']
      intro hmem
      rw [hplace s List.mem_cons_self k hmem] at hk'
      exact hnot (Option.some.inj hk' ▸ hs')
    have hfinish : (fun k => if ∃ s' ∈ s :: rest, k ∈ keysAt s' then some dest else place k) =
        fun k => if ∃ s' ∈ rest, k ∈ keysAt s' then some dest
          else (Move.ofKeys s dest (keysAt s)).carry place k := by
      funext k
      rw [hcarry]
      by_cases hk : k ∈ keysAt s <;> simp [hk]
    rw [hfinish]
    exact ⟨hready, ih hrest _ hleft⟩

end Reshard
