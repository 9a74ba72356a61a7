import CircuitRouting.Pass.SwapSearch
import CircuitRouting.Proofs.CouplingMap.Path
import CircuitRouting.Proofs.Layout

/-!
# What the search for swaps finds

A trial that ends has brought all pairs next to each other by swaps along edges. On qubits that are
joined among themselves there is, for one pair, always a swap that lowers the cost, and none lowers it by
more than one: a trial takes as many swaps as the cost says, and fails only if it may not.
-/

namespace CircuitRouting.SwapSearch

variable {m : CouplingMap} {s : List Nat} {ps : Positions} {x e : Nat × Nat} {a b c d cap cost : Nat}

-- Different operands, all of them on some qubits.
def Within (s : List Nat) (ps : Positions) : Prop :=
  ∀ x ∈ ps, x.1 ∈ s ∧ x.2 ∈ s ∧ x.1 ≠ x.2

-- The positions after swaps.
def moveAll (ps : Positions) (swaps : List (Nat × Nat)) : Positions :=
  swaps.foldl (fun ps e => move e.1 e.2 ps) ps

theorem exchange_mem {p : Nat} (ha : a ∈ s) (hb : b ∈ s) (hp : p ∈ s) : Layout.exchange a b p ∈ s := by
  rw [Layout.exchange]
  split
  case isTrue => exact hb
  case isFalse => split <;> assumption

theorem Within.move (h : Within s ps) (ha : a ∈ s) (hb : b ∈ s) : Within s (move a b ps) := by
  intro x hx
  have ⟨y, hy, eq⟩ := List.mem_map.mp hx
  subst eq
  have ⟨h₁, h₂, ne⟩ := h y hy
  exact ⟨exchange_mem ha hb h₁, exchange_mem ha hb h₂, fun eq => ne (Layout.exchange_injective eq)⟩

section Exchange

variable {y d' : Nat}

-- A swap along an edge takes each qubit one step or leaves it.
theorem coupled_exchange (h : m.coupled a b) (y : Nat) :
    Layout.exchange a b y = y ∨ m.coupled y (Layout.exchange a b y) := by
  by_cases first : y = a
  case pos => exact .inr (by simpa [first] using h)
  case neg =>
    by_cases second : y = b
    case pos => exact .inr (by simpa [second, CouplingMap.coupled_comm] using h)
    case neg => exact .inl (Layout.exchange_of_ne first second)

-- A swap along an edge brings two qubits at most one step nearer.
theorem distance_le_of_exchange {x : Nat} (h : m.coupled a b) (far : m.distance x y = some d)
    (near : m.distance (Layout.exchange a b x) (Layout.exchange a b y) = some d') : d ≤ d' + 1 := by
  rcases coupled_exchange h x with hx | hx <;> rcases coupled_exchange h y with hy | hy
  case inl.inl =>
    rw [hx, hy, far, Option.some.injEq] at near
    omega
  case inl.inr =>
    rw [hx] at near
    exact CouplingMap.distance_le_of_coupled far hy near
  case inr.inl =>
    rw [hy] at near
    exact CouplingMap.distance_le_of_coupled (CouplingMap.distance_symm far) hx
      (CouplingMap.distance_symm near)
  case inr.inr =>
    -- Both move, so that they are the same qubit or the two ends of the edge.
    have moves : ∀ z, m.coupled z (Layout.exchange a b z) → z = a ∨ z = b := by
      intro z step
      by_contra other
      rw [not_or] at other
      rw [Layout.exchange_of_ne other.1 other.2] at step
      exact (CouplingMap.inside_of_coupled step).2.2 rfl
    have close : x = y ∨ m.coupled x y := by
      rcases moves x hx with rfl | rfl <;> rcases moves y hy with rfl | rfl
      case inl.inl => exact .inl rfl
      case inl.inr => exact .inr h
      case inr.inl => exact .inr (CouplingMap.coupled_comm ▸ h)
      case inr.inr => exact .inl rfl
    cases close
    case inl same =>
      rw [same, CouplingMap.distance_self (CouplingMap.inside_of_coupled hy).1] at far
      cases far
      exact Nat.zero_le _
    case inr step =>
      rw [CouplingMap.distance_of_coupled step] at far
      cases far
      exact Nat.le_add_left 1 d'

end Exchange

section Cost

theorem cost?_cons : cost? (.build m s) (x :: ps) = some c ↔
    ∃ d, m.distance x.1 x.2 = some d ∧ ∃ c', cost? (.build m s) ps = some c' ∧ d - 1 + c' = c := by
  simp [cost?, DistanceTable.distance_build, Option.bind_eq_some_iff]

theorem cost?_single : cost? (.build m s) [x] = some c ↔
    ∃ d, m.distance x.1 x.2 = some d ∧ d - 1 = c := by
  simp [cost?, DistanceTable.distance_build, Option.bind_eq_some_iff]

-- A swap along an edge lowers the cost of one pair by at most one.
theorem cost_le_of_move {c' : Nat} (h : m.coupled a b) (far : cost? (.build m s) [x] = some c)
    (near : cost? (.build m s) (move a b [x]) = some c') : c ≤ c' + 1 := by
  have ⟨d, dist, eq⟩ := cost?_single.mp far
  have ⟨d', dist', eq'⟩ := cost?_single.mp near
  have := distance_le_of_exchange h dist dist'
  omega

theorem exists_cost (h : m.Spanned s) (within : Within s ps) :
    ∃ c, cost? (.build m s) ps = some c := by
  induction ps
  case nil => exact ⟨0, rfl⟩
  case cons x ps hi =>
    have ⟨⟨h₁, h₂, _⟩, rest⟩ := List.forall_mem_cons.mp within
    have ⟨d, eq, _⟩ := h.exists_distance h₁ h₂
    have ⟨c, eq'⟩ := hi rest
    exact ⟨_, cost?_cons.mpr ⟨d, eq, c, eq', rfl⟩⟩

theorem close_of_cost_zero (eq : cost? (.build m s) ps = some 0) :
    ∀ x ∈ ps, x.1 = x.2 ∨ m.coupled x.1 x.2 := by
  induction ps
  case nil => simp
  case cons x ps hi =>
    have ⟨d, near, c, others, sum⟩ := cost?_cons.mp eq
    refine List.forall_mem_cons.mpr ⟨?_, hi ?_⟩
    case refine_1 =>
      match d, sum with
      | 0, _ => exact .inl (CouplingMap.eq_of_distance_zero near)
      | 1, _ => exact .inr (CouplingMap.coupled_of_distance_one near)
      | d + 2, sum => omega
    case refine_2 =>
      have : c = 0 := by omega
      exact this ▸ others

end Cost

section Improving

variable {edges : List (Nat × Nat)} {choices : List ((Nat × Nat) × Nat)} {w : Nat}

theorem mem_improving (eq : improving? (.build m s) cost ps edges = some choices) :
    (e, w) ∈ choices ↔ e ∈ edges ∧ ∃ c < cost, cost? (.build m s) (move e.1 e.2 ps) = some c ∧
      w = (cost - c) * (cost - c) := by
  induction edges generalizing choices
  case nil =>
    cases eq
    simp
  case cons f edges hi =>
    simp only [improving?, Option.bind_eq_bind, Option.pure_def, Option.bind_eq_some_iff,
      Option.some.injEq] at eq
    have ⟨c, lower, others, eq', same⟩ := eq
    have hi := hi eq'
    subst same
    split
    case isTrue lt =>
      rw [List.mem_cons, hi, List.mem_cons, Prod.mk.injEq]
      constructor
      case mp =>
        rintro (⟨rfl, rfl⟩ | ⟨mem, rest⟩)
        · exact ⟨.inl rfl, c, lt, lower, rfl⟩
        · exact ⟨.inr mem, rest⟩
      case mpr =>
        rintro ⟨rfl | mem, rest⟩
        · have ⟨c', _, lower', weight⟩ := rest
          cases lower.symm.trans lower'
          exact .inl ⟨rfl, weight⟩
        · exact .inr ⟨mem, rest⟩
    case isFalse ge =>
      rw [hi, List.mem_cons]
      constructor
      case mp => exact fun ⟨mem, rest⟩ => ⟨.inr mem, rest⟩
      case mpr =>
        rintro ⟨rfl | mem, rest⟩
        · have ⟨c', lt, lower', _⟩ := rest
          cases lower.symm.trans lower'
          contradiction
        · exact ⟨mem, rest⟩

theorem exists_improving (h : m.Spanned s) (within : Within s ps)
    (inside : ∀ e ∈ edges, e.1 ∈ s ∧ e.2 ∈ s) (cost : Nat) :
    ∃ choices, improving? (.build m s) cost ps edges = some choices := by
  induction edges
  case nil => exact ⟨[], rfl⟩
  case cons f edges hi =>
    have ⟨⟨h₁, h₂⟩, rest⟩ := List.forall_mem_cons.mp inside
    have ⟨c, eq⟩ := exists_cost h (within.move h₁ h₂)
    have ⟨others, eq'⟩ := hi rest
    exact ⟨_, by simp only [improving?, eq, eq', Option.bind_eq_bind, Option.bind_some]; rfl⟩

-- An operand can be moved one step toward a partner that is not its neighbour.
theorem exists_lowering (far : cost? (.build m s) [x] = some (c + 1)) :
    ∃ e ∈ m.undirectedEdges, cost? (.build m s) (move e.1 e.2 [x]) = some c := by
  have ⟨d, dist, sum⟩ := cost?_single.mp far
  match d, sum with
  | d + 1, sum =>
    have ⟨v, _, near, coupled⟩ := CouplingMap.exists_parent dist
    have ne : x.1 ≠ x.2 := by
      rintro same
      rw [same, CouplingMap.distance_self (CouplingMap.inside_of_coupled coupled).2.1] at dist
      simp at dist
    have ne' : x.1 ≠ v.parent := by
      rintro same
      rw [same, CouplingMap.distance_self (CouplingMap.inside_of_coupled coupled).1] at near
      simp only [Option.some.injEq] at near
      omega
    -- The edge to the parent is listed with its lower end first.
    have moved : ∀ e : Nat × Nat, e = (v.parent, x.2) ∨ e = (x.2, v.parent) →
        cost? (.build m s) (move e.1 e.2 [x]) = some c := by
      rintro e (rfl | rfl) <;> refine cost?_single.mpr ⟨d, ?_, by omega⟩ <;>
        simpa [move, Layout.exchange_of_ne, ne, ne'] using near
    by_cases lt : v.parent < x.2
    case pos =>
      exact ⟨_, CouplingMap.mem_undirectedEdges.mpr ⟨lt, coupled⟩, moved _ (.inl rfl)⟩
    case neg =>
      have := (CouplingMap.inside_of_coupled coupled).2.2
      have back : m.coupled x.2 v.parent := CouplingMap.coupled_comm ▸ coupled
      exact ⟨_, CouplingMap.mem_undirectedEdges.mpr ⟨by simp; omega, back⟩, moved _ (.inr rfl)⟩

end Improving

theorem le_natSum_of_mem {n : Nat} {ns : List Nat} (h : n ∈ ns) : n ≤ natSum ns := by
  induction ns
  case nil => simp at h
  case cons k ns hi =>
    rw [natSum_cons]
    cases List.mem_cons.mp h
    case inl eq => omega
    case inr mem =>
      have := hi mem
      omega

section Steps

-- A path starts with an edge.
theorem coupled_of_firstStep? {path : List Nat} (h : m.Path a b path)
    (first : firstStep? path = some e) : m.coupled e.1 e.2 := by
  cases path
  case nil => contradiction
  case cons p path =>
    cases path
    case nil => contradiction
    case cons q path =>
      cases first
      exact (List.isChain_cons_cons.mp h.steps).1

variable {σ : Type} {chooser : Chooser σ} {r r' : σ} {swaps : List (Nat × Nat)}

theorem coupled_of_stepToward (eq : stepToward chooser (.build m s) ps r = (some e, r')) :
    m.coupled e.1 e.2 := by
  simp only [stepToward] at eq
  split at eq
  case isFalse => cases eq
  case isTrue h =>
    have ⟨path, shortest, first⟩ := Option.bind_eq_some_iff.mp (Prod.mk.inj eq).1
    have ⟨d, dist, _⟩ := Option.bind_eq_some_iff.mp shortest
    have ⟨_, found, _, steps⟩ := CouplingMap.exists_shortestPath dist
    cases shortest.symm.trans found
    exact coupled_of_firstStep? steps first

-- Every swap is along an edge.
theorem coupled_of_nextSwap
    (eq : nextSwap chooser (.build m s) m.undirectedEdges cost ps r = (some e, r')) :
    m.coupled e.1 e.2 := by
  rw [nextSwap] at eq
  split at eq
  case h_1 => cases eq
  case h_2 => exact coupled_of_stepToward eq
  case h_3 choices _ found =>
    dsimp only at eq
    split at eq
    case isFalse => cases eq
    case isTrue h =>
      have ⟨⟨e', w⟩, drawn, same⟩ := Option.map_eq_some_iff.mp (Prod.mk.inj eq).1
      have mem := (mem_improving found).mp (List.mem_of_getElem? drawn)
      exact same ▸ (CouplingMap.mem_undirectedEdges.mp mem.1).2

-- For one pair that is apart there is a next swap, and it lowers the cost by one.
theorem exists_nextSwap (chooser : Chooser σ) (r : σ) (h : m.Spanned s) (within : Within s [x])
    (far : cost? (.build m s) [x] = some (c + 1)) :
    ∃ e r', nextSwap chooser (.build m s) m.undirectedEdges (c + 1) [x] r = (some e, r') ∧
      m.coupled e.1 e.2 ∧ cost? (.build m s) (move e.1 e.2 [x]) = some c := by
  have inside : ∀ e ∈ m.undirectedEdges, e.1 ∈ s ∧ e.2 ∈ s := fun e he =>
    h.closed _ _ (CouplingMap.mem_undirectedEdges.mp he).2
  have ⟨choices, found⟩ := exists_improving h within inside (c + 1)
  have ⟨f, hf, lower⟩ := exists_lowering far
  have first : (f, 1) ∈ choices := (mem_improving found).mpr ⟨hf, c, by omega, lower, by simp⟩
  have positive : 0 < natSum (choices.map Prod.snd) :=
    le_natSum_of_mem (List.mem_map_of_mem (f := Prod.snd) first)
  cases choices
  case nil => simp at first
  case cons y ys =>
    rw [nextSwap, found]
    dsimp only
    rw [dif_pos positive]
    -- Whatever position is drawn, it is one of the choices.
    have lt : (chooser.weighted _ positive r).1.val < (y :: ys).length := by
      simpa using (chooser.weighted _ positive r).1.isLt
    have ⟨mem, c', less, lower, _⟩ := (mem_improving found).mp (List.getElem_mem lt)
    have coupled := (CouplingMap.mem_undirectedEdges.mp mem).2
    have exact : c' = c := by
      have := cost_le_of_move coupled far lower
      omega
    refine ⟨_, (chooser.weighted _ positive r).2, ?_, coupled, exact ▸ lower⟩
    exact Prod.ext (congrArg (Option.map Prod.fst) (List.getElem?_eq_getElem lt)) rfl

-- Swaps along edges after which nothing is left of the cost.
structure Clears (m : CouplingMap) (s : List Nat) (ps : Positions) (swaps : List (Nat × Nat)) :
    Prop where
  along : ∀ e ∈ swaps, m.coupled e.1 e.2
  free : cost? (.build m s) (moveAll ps swaps) = some 0

namespace Clears

theorem nil (free : cost? (.build m s) ps = some 0) : Clears m s ps [] :=
  ⟨by simp, free⟩

theorem cons (coupled : m.coupled e.1 e.2) (h : Clears m s (move e.1 e.2 ps) swaps) :
    Clears m s ps (e :: swaps) :=
  ⟨List.forall_mem_cons.mpr ⟨coupled, h.along⟩, h.free⟩

-- The two qubits of a pair are neighbours in the end, or one and the same.
theorem close (h : Clears m s ps swaps) : ∀ x ∈ moveAll ps swaps, x.1 = x.2 ∨ m.coupled x.1 x.2 :=
  close_of_cost_zero h.free

-- Each swap lowers the cost of one pair by at most one, so that no fewer can do.
theorem cost_le_length (h : Clears m s [x] swaps) (spanned : m.Spanned s) (within : Within s [x])
    (far : cost? (.build m s) [x] = some c) : c ≤ swaps.length := by
  induction swaps generalizing x c
  case nil =>
    cases far.symm.trans h.free
    exact Nat.zero_le _
  case cons e swaps hi =>
    have ⟨coupled, along⟩ := List.forall_mem_cons.mp h.along
    have ⟨ha, hb⟩ := spanned.closed _ _ coupled
    have within' := within.move ha hb
    have ⟨c', eq⟩ := exists_cost spanned within'
    have step := cost_le_of_move coupled far eq
    have rest := hi ⟨along, h.free⟩ within' eq
    rw [List.length_cons]
    omega

end Clears

-- What a trial that succeeds has drawn: one swap after the other, as long as something is left of the
-- cost.
inductive Drawn (chooser : Chooser σ) (t : DistanceTable) (edges : List (Nat × Nat)) :
    Nat → Positions → σ → List (Nat × Nat) → σ → Prop
  | done {cap : Nat} {ps : Positions} (r : σ) :
    cost? t ps = some 0 → Drawn chooser t edges cap ps r [] r
  | step {cap cost : Nat} {ps : Positions} {r r₁ r' : σ} {e : Nat × Nat} {swaps : List (Nat × Nat)} :
    cost? t ps = some (cost + 1) → nextSwap chooser t edges (cost + 1) ps r = (some e, r₁) →
    Drawn chooser t edges cap (move e.1 e.2 ps) r₁ swaps r' →
    Drawn chooser t edges (cap + 1) ps r (e :: swaps) r'

theorem drawn_of_trial {t : DistanceTable} {edges : List (Nat × Nat)}
    (eq : trial chooser t edges cap ps r = (some swaps, r')) :
    Drawn chooser t edges cap ps r swaps r' := by
  induction cap generalizing ps r swaps
  case zero =>
    rw [trial] at eq
    split at eq
    case h_2 none =>
      cases eq
      exact .done _ none
    all_goals cases eq
  case succ cap hi =>
    rw [trial] at eq
    split at eq
    case h_1 => cases eq
    case h_2 none =>
      cases eq
      exact .done _ none
    case h_3 cost some =>
      dsimp only at eq
      split at eq
      case h_1 => cases eq
      case h_2 a b r₁ next =>
        have ⟨rest, found, same⟩ := Option.map_eq_some_iff.mp (Prod.mk.inj eq).1
        exact same ▸ .step some next (hi (Prod.ext found (Prod.mk.inj eq).2))

theorem Drawn.clears (h : Drawn chooser (.build m s) m.undirectedEdges cap ps r swaps r') :
    Clears m s ps swaps := by
  induction h
  case done none => exact .nil none
  case step next _ hi => exact .cons (coupled_of_nextSwap next) hi

theorem clears_of_trial
    (eq : trial chooser (.build m s) m.undirectedEdges cap ps r = (some swaps, r')) :
    Clears m s ps swaps :=
  (drawn_of_trial eq).clears

-- A trial with one pair takes as many swaps as the cost says, and fails if these are too many.
theorem length_trial (chooser : Chooser σ) (r : σ) (h : m.Spanned s) (within : Within s [x])
    (far : cost? (.build m s) [x] = some cost) :
    (trial chooser (.build m s) m.undirectedEdges cap [x] r).1.map List.length =
      if cost ≤ cap then some cost else none := by
  induction cap generalizing x cost r
  case zero => cases cost <;> simp [trial, far]
  case succ cap hi =>
    cases cost
    case zero => simp [trial, far]
    case succ cost =>
      have ⟨e, r₁, next, coupled, lower⟩ := exists_nextSwap chooser r h within far
      have ⟨ha, hb⟩ := h.closed _ _ coupled
      have rest := hi r₁ (within.move ha hb) lower
      rw [trial, far]
      dsimp only
      rw [next]
      dsimp only
      change (Option.map _ (trial chooser _ _ cap (move e.1 e.2 [x]) r₁).1).map _ = _
      have longer : List.length ∘ (e :: ·) = (· + 1) ∘ List.length := rfl
      rw [Option.map_map, longer, ← Option.map_map]
      rw [show move e.1 e.2 [x] = [_] from rfl, rest]
      by_cases le : cost ≤ cap
      case pos => simp [le]
      case neg => simp [le]

variable {trials : Nat} {best : Option (List (Nat × Nat))}

-- The search returns what it was given or what a trial has found.
theorem of_search {edges : List (Nat × Nat)} {t : DistanceTable} (good : List (Nat × Nat) → Prop)
    (given : ∀ b ∈ best, good b)
    (found : ∀ r swaps r', trial chooser t edges cap ps r = (some swaps, r') → good swaps)
    (eq : search chooser t edges cap ps trials best r = (some swaps, r')) : good swaps := by
  induction trials generalizing best r
  case zero =>
    cases eq
    exact given swaps rfl
  case succ trials hi =>
    rw [search] at eq
    dsimp only at eq
    split at eq
    case h_1 => exact hi given eq
    case h_2 new r₁ tried =>
      have next : good (shorter best new) := by
        cases best
        case none => exact found _ _ _ tried
        case some b =>
          rw [shorter]
          split
          case isTrue => exact found _ _ _ tried
          case isFalse => exact given b rfl
      split at eq
      case isTrue =>
        cases eq
        exact next
      case isFalse => exact hi (by simpa using next) eq

theorem clears_of_search
    (eq : search chooser (.build m s) m.undirectedEdges cap ps trials none r = (some swaps, r')) :
    Clears m s ps swaps :=
  of_search (Clears m s ps) (by simp) (fun _ _ _ tried => clears_of_trial tried) eq

-- If all trials take the same number of swaps, or all fail, then so does the search.
theorem length_search_of_trial {edges : List (Nat × Nat)} {t : DistanceTable} {len : Option Nat}
    (same : ∀ r, (trial chooser t edges cap ps r).1.map List.length = len)
    (given : best = none ∧ 0 < trials ∨ best.map List.length = len) :
    (search chooser t edges cap ps trials best r).1.map List.length = len := by
  induction trials generalizing best r
  case zero => simpa [search] using given
  case succ trials hi =>
    have here := same r
    rw [search]
    dsimp only
    split
    case h_1 r₁ tried =>
      rw [tried] at here
      refine hi (.inr ?_)
      rcases given with ⟨rfl, _⟩ | given
      · exact here
      · exact given
    case h_2 new r₁ tried =>
      rw [tried] at here
      have next : some (shorter best new).length = len := by
        rcases given with ⟨rfl, _⟩ | given
        · exact here
        · cases best
          case none => exact here
          case some b =>
            rw [shorter]
            split
            · exact here
            · exact given
      split
      case isTrue => exact next
      case isFalse => exact hi (.inr next)

theorem length_search (chooser : Chooser σ) (r : σ) (h : m.Spanned s) (within : Within s [x])
    (far : cost? (.build m s) [x] = some cost) (tries : 0 < trials) :
    (search chooser (.build m s) m.undirectedEdges cap [x] trials none r).1.map List.length =
      if cost ≤ cap then some cost else none :=
  length_search_of_trial (fun r => length_trial chooser r h within far) (.inl ⟨rfl, tries⟩)

end Steps

end CircuitRouting.SwapSearch
