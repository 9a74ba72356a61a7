import CircuitRouting.Proofs.Routing.Confined

/-!
# What the search for swaps returns

Each trial goes on from the random state that the one before has left. The search makes trials until a
result of at most one swap is found, or none is left to make, and returns a shortest of the results. A
result leaves nothing of the cost, which no shorter part of it does, and it moves the qubits of a layout
as it moves the positions.
-/

namespace CircuitRouting.SwapSearch

open Routing (Placed)

variable {σ : Type} {chooser : Chooser σ} {t : DistanceTable} {edges : List (Nat × Nat)}
  {m : CouplingMap} {s : List Nat} {ps : Positions} {cap trials : Nat} {r r' : σ}
  {swaps : List (Nat × Nat)} {best : Option (List (Nat × Nat))}

-- Swaps along edges, not too many, that leave nothing of the cost. Each of them is needed in its place:
-- before the last one something is left.
structure Solution (m : CouplingMap) (s : List Nat) (cap : Nat) (ps : Positions)
    (swaps : List (Nat × Nat)) : Prop extends Clears m s ps swaps where
  bounded : swaps.length ≤ cap
  needed : ∀ early, early <+: swaps → early ≠ swaps →
    cost? (.build m s) (moveAll ps early) ≠ some 0

theorem Drawn.length_le (h : Drawn chooser t edges cap ps r swaps r') : swaps.length ≤ cap := by
  induction h
  case done => exact Nat.zero_le _
  case step hi => exact Nat.succ_le_succ hi

theorem Drawn.needed (h : Drawn chooser t edges cap ps r swaps r') {early : List (Nat × Nat)}
    (first : early <+: swaps) (ne : early ≠ swaps) : cost? t (moveAll ps early) ≠ some 0 := by
  induction h generalizing early
  case done => exact absurd (List.prefix_nil.mp first) ne
  case step cost _ _ _ _ e swaps left _ _ hi =>
    cases early
    case nil => simp [moveAll, left]
    case cons e' early =>
      obtain ⟨rfl, rest⟩ := List.cons_prefix_cons.mp first
      exact hi rest fun same => ne (congrArg _ same)

theorem Drawn.solution (h : Drawn chooser (.build m s) m.undirectedEdges cap ps r swaps r') :
    Solution m s cap ps swaps :=
  ⟨h.clears, h.length_le, fun _ first ne => h.needed first ne⟩

section Attempts

variable (chooser : Chooser σ) (t : DistanceTable) (edges : List (Nat × Nat)) (cap : Nat)
  (ps : Positions)

-- The results of trials made one after the other, and the random state in the end.
def attempts : (trials : Nat) → σ → List (Option (List (Nat × Nat))) × σ
  | 0, r => ([], r)
  | trials + 1, r =>
    let (found, r) := trial chooser t edges cap ps r
    let (others, r) := attempts trials r
    (found :: others, r)

end Attempts

-- A shortest of some results, if there is any.
structure Shortest (results : List (Option (List (Nat × Nat)))) (found : Option (List (Nat × Nat))) :
    Prop where
  mem : found ∈ results
  le : ∀ swaps, some swaps ∈ results → ∃ least, found = some least ∧ least.length ≤ swaps.length

namespace Shortest

variable {results : List (Option (List (Nat × Nat)))} {found : Option (List (Nat × Nat))}
  {new : List (Nat × Nat)}

theorem single (best : Option (List (Nat × Nat))) : Shortest [best] best :=
  ⟨by simp, fun swaps h => ⟨swaps, (List.mem_singleton.mp h).symm, Nat.le_refl _⟩⟩

-- A failed trial does not count.
theorem skip (h : Shortest (best :: results) found) : Shortest (best :: none :: results) found where
  mem := by
    have mem := h.mem
    grind
  le swaps hs := h.le swaps (by simpa using hs)

theorem shorter_cases (best : Option (List (Nat × Nat))) (new : List (Nat × Nat)) :
    (some (shorter best new) = best ∨ shorter best new = new) ∧
      (shorter best new).length ≤ new.length ∧
      ∀ b, best = some b → (shorter best new).length ≤ b.length := by
  cases best
  case none => simp [shorter]
  case some b =>
    rw [shorter]
    split
    case isTrue lt => simp [Nat.le_of_lt lt]
    case isFalse ge => simpa using ge

-- What was found before and a new result are as good as the shorter of the two.
theorem shorten (h : Shortest (some (shorter best new) :: results) found) :
    Shortest (best :: some new :: results) found := by
  have ⟨either, leNew, leBest⟩ := shorter_cases best new
  have ⟨least, here, leHere⟩ := h.le _ (List.mem_cons_self ..)
  refine ⟨?_, fun swaps hs => ?_⟩
  case refine_1 =>
    have mem := h.mem
    grind
  case refine_2 =>
    simp only [List.mem_cons, Option.some.injEq] at hs
    rcases hs with old | rfl | later
    · exact ⟨least, here, Nat.le_trans leHere (leBest swaps old.symm)⟩
    · exact ⟨least, here, Nat.le_trans leHere leNew⟩
    · exact h.le swaps (by simp [later])

end Shortest

-- How many trials a search makes, and which of what they and earlier ones have found it returns.
theorem exists_attempts_of_search {found : Option (List (Nat × Nat))}
    (eq : search chooser t edges cap ps trials best r = (found, r')) :
    ∃ made ≤ trials, ∃ results, attempts chooser t edges cap ps made r = (results, r') ∧
      Shortest (best :: results) found ∧
      (made = trials ∨ ∃ swaps, found = some swaps ∧ swaps.length ≤ 1) := by
  induction trials generalizing best r
  case zero =>
    cases eq
    exact ⟨0, Nat.le_refl 0, [], rfl, .single _, .inl rfl⟩
  case succ trials hi =>
    rw [search] at eq
    dsimp only at eq
    split at eq
    case h_1 r₁ failed =>
      obtain ⟨made, le, results, ran, shortest, all⟩ := hi eq
      refine ⟨made + 1, Nat.succ_le_succ le, none :: results, ?_, shortest.skip, ?_⟩
      case refine_1 => simp [attempts, failed, ran]
      case refine_2 => exact all.imp_left (congrArg (· + 1))
    case h_2 new r₁ tried =>
      split at eq
      case isTrue short =>
        cases eq
        refine ⟨1, by omega, [some new], by simp [attempts, tried], (Shortest.single _).shorten, ?_⟩
        exact .inr ⟨_, rfl, short⟩
      case isFalse =>
        obtain ⟨made, le, results, ran, shortest, all⟩ := hi eq
        refine ⟨made + 1, Nat.succ_le_succ le, some new :: results, ?_, shortest.shorten, ?_⟩
        case refine_1 => simp [attempts, tried, ran]
        case refine_2 => exact all.imp_left (congrArg (· + 1))

theorem solution_of_mem_attempts {made : Nat} {results : List (Option (List (Nat × Nat)))}
    (eq : attempts chooser (.build m s) m.undirectedEdges cap ps made r = (results, r'))
    (mem : some swaps ∈ results) : Solution m s cap ps swaps := by
  induction made generalizing r results
  case zero =>
    cases eq
    contradiction
  case succ made hi =>
    cases eq
    cases List.mem_cons.mp mem
    case inl here => exact (drawn_of_trial (Prod.ext here.symm rfl)).solution
    case inr later => exact hi rfl later

theorem search_returns_shortest_solution {σ : Type} (chooser : Chooser σ) (m : CouplingMap)
    (s : List Nat) (ps : Positions) (cap trials : Nat) (r : σ) {swaps : List (Nat × Nat)} {r' : σ}
    (eq : search chooser (.build m s) m.undirectedEdges cap ps trials none r = (some swaps, r')) :
    Solution m s cap ps swaps ∧
    (∃ made ≤ trials, ∃ results,
      attempts chooser (.build m s) m.undirectedEdges cap ps made r = (results, r') ∧
      some swaps ∈ results ∧ (∀ other, some other ∈ results → swaps.length ≤ other.length) ∧
      (made = trials ∨ swaps.length ≤ 1)) ∧
    ∀ lay gates, Placed lay gates ps → Placed (lay.swapAll swaps) gates (moveAll ps swaps) := by
  have ⟨made, le, results, ran, shortest, all⟩ := exists_attempts_of_search eq
  have mem : some swaps ∈ results := by simpa using shortest.mem
  refine ⟨solution_of_mem_attempts ran mem, ⟨made, le, results, ran, mem, ?_, ?_⟩,
    fun lay gates placed => placed.swapAll swaps⟩
  case refine_1 =>
    intro other found
    have ⟨least, same, le⟩ := shortest.le other (by simp [found])
    exact Option.some.inj same ▸ le
  case refine_2 => simpa using all

-- A source of choices that goes through the positions in turn.
def inTurn : Chooser Nat where
  weighted weights h r := (⟨r % weights.length, Nat.mod_lt _ (by cases weights <;> simp_all)⟩, r + 1)
  uniform n h r := (⟨r % n, Nat.mod_lt _ h⟩, r + 1)

def pentagon : CouplingMap :=
  .build 5 [(0, 1), (1, 2), (2, 3), (3, 4), (4, 0)] (by decide)

-- Two gates across each other. Two trials need two swaps each, the third one finds the edge that does
-- for both gates, and the other three are not made.
theorem search_returns_shortest_solution_pentagon :
    search inTurn (.build pentagon []) pentagon.undirectedEdges 9 [(0, 2), (1, 3)] 6 none 0 =
        (some [(1, 2)], 5) ∧
      Solution pentagon [] 9 [(0, 2), (1, 3)] [(1, 2)] ∧
      (∃ made ≤ 6, ∃ results,
        attempts inTurn (.build pentagon []) pentagon.undirectedEdges 9 [(0, 2), (1, 3)] made 0 =
          (results, 5) ∧
        some [(1, 2)] ∈ results ∧ (∀ other, some other ∈ results → [(1, 2)].length ≤ other.length) ∧
        (made = 6 ∨ [(1, 2)].length ≤ 1)) ∧
      ∀ lay gates, Placed lay gates [(0, 2), (1, 3)] →
        Placed (lay.swapAll [(1, 2)]) gates (moveAll [(0, 2), (1, 3)] [(1, 2)]) := by
  have found : search inTurn (.build pentagon []) pentagon.undirectedEdges 9 [(0, 2), (1, 3)] 6 none 0 =
      (some [(1, 2)], 5) :=
    rfl
  exact ⟨found, search_returns_shortest_solution inTurn pentagon [] _ 9 6 0 found⟩

end CircuitRouting.SwapSearch
