import CircuitRouting.Pass.Placement
import CircuitRouting.Proofs.CouplingMap.Components
import CircuitRouting.Proofs.Except
import CircuitRouting.Proofs.Layout
import CircuitRouting.Proofs.Layers
import CircuitRouting.Proofs.Pass.Expansion

/-!
# Which layouts are chosen

A layout passes the checks if it places the circuit's qubits on qubits that are joined among
themselves. A layout that is grown stays within one component that has room for the circuit, and as
long as a qubit of the circuit has no place, there is a free one next to those in use.
-/

namespace CircuitRouting.Placement

variable {m : CouplingMap} {d : Dag} {lay : Layout} {given : Option Layout}

theorem checkPair_eq_ok_iff {x : Nat × Nat} :
    checkPair m d x = .ok () ↔ x.1 ∈ d.qubits ∧ x.2 < m.numQubits := by
  rw [checkPair]
  split
  case isTrue missing => simp_all
  case isFalse known =>
    split
    case isTrue outside =>
      simp only [reduceCtorEq, false_iff, not_and]
      omega
    case isFalse inside => simp_all

theorem check_eq_ok_iff : check m d lay = .ok () ↔
    (∀ q ∈ d.qubits, (lay.physical? q).isSome) ∧
      (∀ x ∈ lay.pairs, x.1 ∈ d.qubits ∧ x.2 < m.numQubits) ∧
      m.isConnectedSubset lay.occupied := by
  have placed : ∀ q, (if (lay.physical? q).isSome then .ok () else
      .error (.layoutIncomplete q) : Except CompileError Unit) = .ok () ↔
        (lay.physical? q).isSome := by
    intro q
    split <;> simp_all
  constructor
  case mp =>
    intro h
    have ⟨_, all, h⟩ := bind_eq_ok_iff.mp h
    have ⟨_, pairs, h⟩ := bind_eq_ok_iff.mp h
    refine ⟨fun q hq => (placed q).mp (forM_eq_ok_iff.mp all q hq),
      fun x hx => checkPair_eq_ok_iff.mp (forM_eq_ok_iff.mp pairs x hx), ?_⟩
    split at h
    case isTrue => contradiction
    case isFalse connected => simpa using connected
  case mpr =>
    intro ⟨all, pairs, connected⟩
    refine bind_eq_ok_iff.mpr ⟨(), forM_eq_ok_iff.mpr fun q hq => (placed q).mpr (all q hq), ?_⟩
    refine bind_eq_ok_iff.mpr
      ⟨(), forM_eq_ok_iff.mpr fun x hx => checkPair_eq_ok_iff.mpr (pairs x hx), ?_⟩
    rw [connected]
    rfl

-- A layout that passes occupies at least as many qubits as the circuit has, all of them different.
theorem length_of_check (h : check m d lay = .ok ()) :
    d.numQubits ≤ lay.occupied.length ∧ lay.occupied.length ≤ m.numQubits := by
  have ⟨placed, pairs, connected⟩ := check_eq_ok_iff.mp h
  have inside := (CouplingMap.isConnectedSubset_iff.mp connected).1
  refine ⟨?_, ?_⟩
  case refine_1 =>
    have sub : d.qubits ⊆ lay.pairs.map Prod.fst := by
      intro q hq
      have ⟨p, found⟩ := Option.isSome_iff_exists.mp (placed q hq)
      exact List.mem_map.mpr ⟨(q, p), Layout.mem_pairs_iff.mpr found, rfl⟩
    have le := (List.Nodup.subperm (natLt_separating.nodup_sortUnique _) sub).length_le
    rwa [List.length_map, ← Layout.length_occupied] at le
  case refine_2 =>
    have sub : lay.occupied ⊆ List.range m.numQubits := fun q hq => List.mem_range.mpr (inside q hq)
    have le := (List.Nodup.subperm Layout.nodup_occupied sub).length_le
    rwa [List.length_range] at le

-- The layout that is checked.
def candidate (m : CouplingMap) (given : Option Layout) (d : Dag) : Except CompileError Layout :=
  match given with
  | some lay => .ok lay
  | none => grow m d

theorem choose_eq (m : CouplingMap) (given : Option Layout) (d : Dag) :
    choose m given d =
      if m.numQubits < d.numQubits then .error (.circuitTooLarge d.numQubits m.numQubits)
      else candidate m given d >>= fun lay => check m d lay >>= fun _ => .ok lay := by
  cases given <;> rw [choose] <;> split <;> rfl

theorem choose_eq_ok_iff :
    choose m given d = .ok lay ↔ candidate m given d = .ok lay ∧ check m d lay = .ok () := by
  rw [choose_eq]
  split
  case isTrue large =>
    simp only [reduceCtorEq, false_iff, not_and]
    intro _ checked
    have := length_of_check checked
    omega
  case isFalse =>
    simp only [bind_eq_ok_iff]
    constructor
    case mp =>
      rintro ⟨lay', found, _, checked, ⟨⟩⟩
      exact ⟨found, checked⟩
    case mpr => exact fun ⟨found, checked⟩ => ⟨lay, found, (), checked, rfl⟩

section Ground

variable {used : List Nat} {p q k : Nat} {e : Nat × Nat}

theorem isRoomy_iff (hp : p < m.numQubits) :
    (Ground.of m k).isRoomy p ↔ k ≤ (m.component p).ncard := by
  rw [Ground.isRoomy, decide_eq_true_iff, ← CouplingMap.componentSizes_eq hp]
  rfl

theorem touches_iff : (Ground.of m k).touches used p ↔ ∃ u ∈ used, m.coupled p u := by
  simp only [Ground.touches, Ground.near_of, List.any_eq_true, List.contains_iff_mem,
    CouplingMap.mem_neighbors]
  exact exists_congr fun u => and_comm

theorem mem_frontier : p ∈ (Ground.of m k).frontier used ↔ p ∉ used ∧ ∃ u ∈ used, m.coupled u p := by
  simp only [Ground.frontier, natLt_separating.mem_sortUnique, List.mem_filter, List.mem_flatMap,
    Ground.near_of, CouplingMap.mem_neighbors]
  simp [and_comm]

-- A choice made one by one is one of those it was made among.
theorem foldl_mem {α : Type} {f : α → α → α} (pick : ∀ a b, f a b = a ∨ f a b = b) (a : α)
    (as : List α) : as.foldl f a ∈ a :: as := by
  induction as generalizing a
  case nil => simp
  case cons b as hi =>
    rw [List.foldl_cons]
    cases List.mem_cons.mp (hi (f a b))
    case inl same =>
      rw [same]
      exact (pick a b).elim (fun eq => by simp [eq]) fun eq => by simp [eq]
    case inr mem => simp [mem]

theorem exists_best {g : Ground} {ps : List Nat} (some : ps ≠ []) : ∃ p ∈ ps, g.best? ps = .some p := by
  cases ps
  case nil => contradiction
  case cons p ps =>
    refine ⟨_, foldl_mem (fun a b => ?_) p ps, rfl⟩
    split <;> simp

theorem of_bestEdge? {g : Ground} (h : g.bestEdge? used = some e) :
    e ∈ g.map.edges ∧ g.isEligible used e := by
  rw [Ground.bestEdge?] at h
  split at h
  case h_1 => contradiction
  case h_2 first rest found =>
    cases h
    rw [← List.mem_filter, found]
    refine foldl_mem (fun a b => ?_) first rest
    split <;> simp

end Ground

-- Joined qubits of a component that has room for `k`.
structure Region (m : CouplingMap) (k : Nat) (used : List Nat) : Prop where
  inside : ∀ p ∈ used, p < m.numQubits
  roomy : ∀ p ∈ used, k ≤ (m.component p).ncard
  connected : m.Connected used

namespace Region

variable {used used' : List Nat} {p q k : Nat} {e : Nat × Nat}

theorem nil (m : CouplingMap) (k : Nat) : Region m k [] :=
  ⟨by simp, by simp, .nil m⟩

theorem congr (h : Region m k used) (same : ∀ q, q ∈ used ↔ q ∈ used') : Region m k used' :=
  ⟨fun p hp => h.inside p ((same p).mpr hp), fun p hp => h.roomy p ((same p).mpr hp),
    h.connected.congr same⟩

theorem single (inside : p < m.numQubits) (roomy : k ≤ (m.component p).ncard) :
    Region m k [p] := by
  refine ⟨by simpa using inside, by simpa using roomy, fun a ha b hb => ?_⟩
  rw [List.mem_singleton.mp ha, List.mem_singleton.mp hb]
  exact .refl

theorem cons (h : Region m k used) (hp : p ∈ used) (coupled : m.coupled p q) :
    Region m k (q :: used) where
  inside := List.forall_mem_cons.mpr ⟨(CouplingMap.inside_of_coupled coupled).2.1, h.inside⟩
  roomy := List.forall_mem_cons.mpr
    ⟨CouplingMap.component_eq coupled ▸ h.roomy p hp, h.roomy⟩
  connected := h.connected.cons hp coupled

-- An edge that may be used next.
theorem edge (h : Region m k used) (he : e ∈ m.edges)
    (eligible : (Ground.of m k).isEligible used e) :
    e.1 ∉ used ∧ e.2 ∉ used ∧ e.1 ≠ e.2 ∧ Region m k (e.2 :: e.1 :: used) := by
  obtain ⟨inside, _, ne⟩ := m.inside e he
  have coupled : m.coupled e.1 e.2 := by simp [CouplingMap.coupled, CouplingMap.hasEdge, he]
  have back : m.coupled e.2 e.1 := CouplingMap.coupled_comm ▸ coupled
  simp only [Ground.isEligible, Bool.and_eq_true, Bool.not_eq_true', ← Bool.not_eq_true,
    List.contains_iff_mem] at eligible
  obtain ⟨⟨free, free'⟩, rest⟩ := eligible
  refine ⟨free, free', ne, ?_⟩
  split at rest
  case isTrue empty =>
    cases List.isEmpty_iff.mp empty
    exact (single inside ((isRoomy_iff inside).mp rest)).cons (by simp) coupled
  case isFalse =>
    rw [Bool.or_eq_true, touches_iff, touches_iff] at rest
    rcases rest with ⟨u, hu, touch⟩ | ⟨u, hu, touch⟩
    · exact (h.cons hu (CouplingMap.coupled_comm ▸ touch)).cons (by simp) coupled
    · refine ((h.cons hu (CouplingMap.coupled_comm ▸ touch)).cons (by simp) back).congr fun q => ?_
      simp only [List.mem_cons]
      tauto

end Region

-- A layout under way places qubits of the circuit on those in use.
structure Filed (d : Dag) (s : Progress) : Prop where
  occupied : ∀ p, p ∈ s.layout.occupied ↔ p ∈ s.used
  known : ∀ l, (s.layout.physical? l).isSome → l ∈ d.qubits

section Growth

variable {s s' : Progress} {pairs : List (Nat × Nat)} {p q l : Nat}

theorem Filed.place (h : Filed d s) (hl : l ∈ d.qubits) (free : s.layout.physical? l = none)
    (hp : p ∉ s.used) : Filed d ⟨s.layout.place l p, p :: s.used⟩ := by
  have hp' : p ∉ s.layout.occupied := fun mem => hp ((h.occupied p).mp mem)
  refine ⟨fun q => ?_, fun l' placed => ?_⟩
  case refine_1 => rw [Layout.mem_occupied_place free hp', h.occupied, List.mem_cons]
  case refine_2 =>
    rw [Layout.physical?_place_of_free hp'] at placed
    split at placed
    case isTrue eq => exact eq ▸ hl
    case isFalse => exact h.known l' placed

-- The other qubits stay where they are.
theorem Filed.physical?_place {l' : Nat} (h : Filed d s) (hp : p ∉ s.used) (ne : l' ≠ l) :
    (s.layout.place l p).physical? l' = s.layout.physical? l' := by
  rw [Layout.physical?_place_of_free fun mem => hp ((h.occupied p).mp mem), if_neg ne]

-- What has a place keeps it.
def Extends (s s' : Progress) : Prop :=
  ∀ l p, s.layout.physical? l = some p → s'.layout.physical? l = some p

theorem Extends.refl (s : Progress) : Extends s s :=
  fun _ _ => id

theorem Extends.trans {s₁ s₂ s₃ : Progress} (h : Extends s₁ s₂) (h' : Extends s₂ s₃) : Extends s₁ s₃ :=
  fun l p placed => h' l p (h l p placed)

theorem Filed.extends_place (h : Filed d s) (free : s.layout.physical? l = none) (hp : p ∉ s.used) :
    Extends s ⟨s.layout.place l p, p :: s.used⟩ := by
  intro l' p' placed
  have ne : l' ≠ l := by
    rintro rfl
    simp [free] at placed
  exact (h.physical?_place hp ne).trans placed

-- The two qubits are placed on the ends of an edge, in its direction.
def OnEdge (m : CouplingMap) (lay : Layout) (a b : Nat) : Prop :=
  ∃ p q, lay.physical? a = some p ∧ lay.physical? b = some q ∧ m.hasEdge p q

theorem OnEdge.mono {a b : Nat} (h : OnEdge m s.layout a b) (grows : Extends s s') :
    OnEdge m s'.layout a b :=
  have ⟨p, q, placed, placed', edge⟩ := h
  ⟨p, q, grows a p placed, grows b q placed', edge⟩

-- A progress after a pair: its qubits are on an edge, and the others stay where they are.
structure Pairs (m : CouplingMap) (d : Dag) (s : Progress) (a b : Nat) (s' : Progress) : Prop where
  filed : Filed d s'
  region : Region m d.numQubits s'.used
  grows : Extends s s'
  others : ∀ l, l ≠ a → l ≠ b → s'.layout.physical? l = s.layout.physical? l
  edge : OnEdge m s'.layout a b

theorem pairs_of_bestEdge? {a b : Nat} (h : Filed d s) (region : Region m d.numQubits s.used)
    (found : (Ground.of m d.numQubits).bestEdge? s.used = some (p, q)) (ha : a ∈ d.qubits)
    (hb : b ∈ d.qubits) (ne : b ≠ a) (free : s.layout.physical? a = none)
    (free' : s.layout.physical? b = none) :
    Pairs m d s a b ⟨(s.layout.place a p).place b q, q :: p :: s.used⟩ := by
  have ⟨he, eligible⟩ := of_bestEdge? found
  have ⟨hp, hq, distinct, region'⟩ := region.edge he eligible
  have hq' : q ∉ p :: s.used := by simp [hq, Ne.symm distinct]
  have first := h.place ha free hp
  have free₁ : (s.layout.place a p).physical? b = none := (h.physical?_place hp ne).trans free'
  refine ⟨first.place hb free₁ hq', region', (h.extends_place free hp).trans (first.extends_place free₁ hq'),
    fun l hla hlb => ?_, p, q, ?_, ?_, ?_⟩
  case refine_1 => exact (first.physical?_place hq' hlb).trans (h.physical?_place hp hla)
  case refine_2 =>
    rw [first.physical?_place hq' ne.symm]
    simp [Layout.physical?_place]
  case refine_3 => simp [Layout.physical?_place]
  case refine_4 => exact List.contains_iff_mem.mpr he

theorem placePairs_spec (h : Filed d s) (region : Region m d.numQubits s.used)
    (known : ∀ x ∈ pairs, x.1 ∈ d.qubits ∧ x.2 ∈ d.qubits)
    (apart : (pairs.flatMap fun x => [x.1, x.2]).Nodup)
    (free : ∀ x ∈ pairs, s.layout.physical? x.1 = none ∧ s.layout.physical? x.2 = none) :
    Filed d (placePairs (.of m d.numQubits) pairs s) ∧
      Region m d.numQubits (placePairs (.of m d.numQubits) pairs s).used ∧
      Extends s (placePairs (.of m d.numQubits) pairs s) ∧
      ∀ a b rest, pairs = (a, b) :: rest → (Ground.of m d.numQubits).bestEdge? s.used ≠ none →
        OnEdge m (placePairs (.of m d.numQubits) pairs s).layout a b := by
  induction pairs generalizing s
  case nil => exact ⟨h, region, .refl s, by simp⟩
  case cons x pairs hi =>
    have ⟨a, b⟩ := x
    rw [placePairs]
    split
    case h_1 none => exact ⟨h, region, .refl s, fun _ _ _ _ found => absurd none found⟩
    case h_2 p q found =>
      have ⟨⟨ha, hb⟩, known⟩ := List.forall_mem_cons.mp known
      have ⟨⟨free₁, free₂⟩, free⟩ := List.forall_mem_cons.mp free
      rw [List.flatMap_cons, List.nodup_append] at apart
      have ⟨both, apart, others⟩ := apart
      have step := pairs_of_bestEdge? h region found ha hb (by simpa [eq_comm] using both) free₁ free₂
      have stays : ∀ x ∈ pairs, ∀ l ∈ [x.1, x.2], s.layout.physical? l = none →
          ((s.layout.place a p).place b q).physical? l = none := by
        intro x hx l hl none
        have mem : l ∈ pairs.flatMap fun x => [x.1, x.2] := List.mem_flatMap.mpr ⟨x, hx, hl⟩
        exact (step.others l (others a (by simp) l mem).symm (others b (by simp) l mem).symm).trans none
      have ⟨h', region', grows, _⟩ := hi step.filed step.region known apart fun x hx =>
        ⟨stays x hx x.1 (by simp) (free x hx).1, stays x hx x.2 (by simp) (free x hx).2⟩
      refine ⟨h', region', step.grows.trans grows, fun a' b' rest eq _ => ?_⟩
      cases eq
      exact step.edge.mono grows

theorem Filed.length_lt (h : Filed d s) (hl : l ∈ d.qubits) (free : s.layout.physical? l = none) :
    s.layout.occupied.length < d.numQubits := by
  have distinct : (l :: s.layout.pairs.map Prod.fst).Nodup := by
    refine List.nodup_cons.mpr ⟨fun mem => ?_, ?_⟩
    case refine_1 =>
      have ⟨x, hx, eq⟩ := List.mem_map.mp mem
      have found := Layout.mem_pairs_iff.mp (show (x.1, x.2) ∈ s.layout.pairs from hx)
      simp [eq, free] at found
    case refine_2 => exact s.layout.nodup_logical
  have sub : l :: s.layout.pairs.map Prod.fst ⊆ d.qubits := by
    refine List.cons_subset.mpr ⟨hl, fun l' mem => ?_⟩
    have ⟨x, hx, eq⟩ := List.mem_map.mp mem
    exact eq ▸ h.known x.1 (by simp [Layout.mem_pairs_iff.mp (show (x.1, x.2) ∈ _ from hx)])
  have le := (List.Nodup.subperm distinct sub).length_le
  rw [Layout.length_occupied, Dag.numQubits]
  simpa using le

-- As long as a qubit has no place, there is one for it.
theorem exists_candidate (h : Filed d s) (region : Region m d.numQubits s.used)
    (room : ∃ p < m.numQubits, d.numQubits ≤ (m.component p).ncard) (hl : l ∈ d.qubits)
    (free : s.layout.physical? l = none) :
    (Ground.of m d.numQubits).candidates s.used ≠ [] := by
  rw [Ground.candidates]
  split
  case isTrue =>
    have ⟨p, inside, roomy⟩ := room
    refine List.ne_nil_of_mem (List.mem_filter.mpr ⟨List.mem_range.mpr inside, ?_⟩)
    exact (isRoomy_iff inside).mpr roomy
  case isFalse nonempty =>
    have ⟨u, hu⟩ := List.exists_mem_of_ne_nil s.used (by simpa using nonempty)
    -- The qubits in use do not fill the component.
    have ⟨b, hb, out⟩ : ∃ b ∈ m.component u, b ∉ s.used := by
      by_contra all
      simp only [not_exists, not_and, not_not] at all
      have sub : m.component u ⊆ (s.layout.occupied.toFinset : Set Nat) := fun b hb => by
        simpa using (h.occupied b).mpr (all b hb)
      have card := Set.ncard_le_ncard sub
      rw [Set.ncard_coe_finset] at card
      have := region.roomy u hu
      have := List.toFinset_card_le s.layout.occupied
      have := h.length_lt hl free
      omega
    have ⟨x, hx, y, hy, coupled⟩ := CouplingMap.exists_exit hu out hb
    exact List.ne_nil_of_mem (mem_frontier.mpr ⟨hy, x, hx, coupled⟩)

-- Where a qubit may be placed keeps to the component.
theorem of_mem_candidates (region : Region m d.numQubits s.used)
    (hp : p ∈ (Ground.of m d.numQubits).candidates s.used) :
    p ∉ s.used ∧ Region m d.numQubits (p :: s.used) := by
  rw [Ground.candidates] at hp
  split at hp
  case isTrue empty =>
    have ⟨range, roomy⟩ := List.mem_filter.mp hp
    have inside := List.mem_range.mp range
    rw [List.isEmpty_iff.mp empty]
    exact ⟨by simp, .single inside ((isRoomy_iff inside).mp roomy)⟩
  case isFalse =>
    have ⟨out, u, hu, coupled⟩ := mem_frontier.mp hp
    exact ⟨out, region.cons hu coupled⟩

theorem exists_placeQubit (h : Filed d s) (region : Region m d.numQubits s.used)
    (room : ∃ p < m.numQubits, d.numQubits ≤ (m.component p).ncard) (hl : l ∈ d.qubits) :
    ∃ s', placeQubit (.of m d.numQubits) s l = .ok s' ∧ Filed d s' ∧
      Region m d.numQubits s'.used ∧ (s'.layout.physical? l).isSome ∧ Extends s s' := by
  rw [placeQubit]
  split
  case isTrue placed => exact ⟨s, rfl, h, region, placed, .refl s⟩
  case isFalse missing =>
    have free : s.layout.physical? l = none := by simpa using missing
    have ⟨p, hp, best⟩ := exists_best (g := .of m d.numQubits)
      (exists_candidate h region room hl free)
    have ⟨out, region'⟩ := of_mem_candidates region hp
    rw [best]
    exact ⟨_, rfl, h.place hl free out, region', by simp [Layout.physical?_place],
      h.extends_place free out⟩

theorem exists_placeQubits {qs : List Nat} (h : Filed d s) (region : Region m d.numQubits s.used)
    (room : qs ≠ [] → ∃ p < m.numQubits, d.numQubits ≤ (m.component p).ncard) (sub : qs ⊆ d.qubits) :
    ∃ s', qs.foldlM (placeQubit (.of m d.numQubits)) s = .ok s' ∧ Filed d s' ∧
      Region m d.numQubits s'.used ∧ (∀ l ∈ qs, (s'.layout.physical? l).isSome) ∧ Extends s s' := by
  induction qs generalizing s
  case nil => exact ⟨s, rfl, h, region, by simp, .refl s⟩
  case cons l qs hi =>
    have room := room (by simp)
    have ⟨hl, sub⟩ := List.cons_subset.mp sub
    have ⟨s₁, eq, h₁, region₁, here, grows⟩ := exists_placeQubit h region room hl
    have ⟨s', eq', h', region', later, grows'⟩ := hi h₁ region₁ (fun _ => room) sub
    have ⟨p, placed⟩ := Option.isSome_iff_exists.mp here
    refine ⟨s', ?_, h', region', List.forall_mem_cons.mpr ⟨?_, later⟩, grows.trans grows'⟩
    case refine_1 =>
      rw [List.foldlM_cons, eq]
      exact eq'
    case refine_2 => exact Option.isSome_of_mem (grows' l p placed)

end Growth

variable {seq : List (Nat × Instruction)}

-- The pairs that are placed first are qubits of the circuit, and each is in one pair.
structure Seeds (d : Dag) (pairs : List (Nat × Nat)) : Prop where
  known : ∀ x ∈ pairs, x.1 ∈ d.qubits ∧ x.2 ∈ d.qubits
  apart : (pairs.flatMap fun x => [x.1, x.2]).Nodup

theorem Seeds.two_le {pairs : List (Nat × Nat)} {x : Nat × Nat} (h : Seeds d pairs) (hx : x ∈ pairs) :
    2 ≤ d.numQubits ∧ d.qubits ≠ [] := by
  have ⟨ha, hb⟩ := h.known x hx
  have both := (List.nodup_flatMap.mp h.apart).1 x hx
  exact ⟨(both.subperm (by simp [ha, hb])).length_le, List.ne_nil_of_mem ha⟩

-- The first pairs are those of a layer, if there are any.
theorem firstPairs_cases (d : Dag) :
    firstPairs d = [] ∨ ∃ layer ∈ d.layers, firstPairs d = d.pairsOf layer := by
  rw [firstPairs]
  cases found : (d.layers.map d.pairsOf).find? fun pairs => !pairs.isEmpty
  case none => exact .inl rfl
  case some pairs =>
    have ⟨layer, hl, eq⟩ := List.mem_map.mp (List.mem_of_find?_eq_some found)
    exact .inr ⟨layer, hl, eq.symm⟩

theorem nodup_firstPairs (tied : d.Tied)
    (paths : ∀ n i, d.instruction? n = some i → i.qubits.Nodup ∧ ∀ w ∈ i.wires, n ∈ d.wireOps w) :
    ((firstPairs d).flatMap fun x => [x.1, x.2]).Nodup := by
  rcases firstPairs_cases d with eq | ⟨layer, hl, eq⟩
  · simp [eq]
  · exact eq ▸ tied.nodup_pairsOf paths hl

theorem seeds_firstPairs (fits : ∀ n i, d.instruction? n = some i → d.Fits i)
    (apart : ((firstPairs d).flatMap fun x => [x.1, x.2]).Nodup) : Seeds d (firstPairs d) := by
  refine ⟨fun x hx => ?_, apart⟩
  rcases firstPairs_cases d with eq | ⟨layer, _, eq⟩
  · simp [eq] at hx
  · have ⟨n, _, i, op, pair⟩ := Dag.mem_pairsOf.mp (eq ▸ hx)
    have qubits := Instruction.qubits_of_pair? pair
    rw [Dag.mem_qubits, Dag.mem_qubits]
    exact ⟨(fits n i op).qubits _ (by simp [qubits]), (fits n i op).qubits _ (by simp [qubits])⟩

-- Where there is room for two qubits, there is an edge to start from.
theorem exists_bestEdge {k : Nat} (two : 2 ≤ k)
    (room : ∃ p < m.numQubits, k ≤ (m.component p).ncard) :
    ∃ p q, (Ground.of m k).bestEdge? [] = some (p, q) := by
  obtain ⟨p, inside, roomy⟩ := room
  obtain ⟨b, hb, ne⟩ := Set.exists_ne_of_one_lt_ncard (by omega : 1 < (m.component p).ncard) p
  obtain ⟨x, hx, y, _, coupled⟩ :=
    CouplingMap.exists_exit (List.mem_singleton_self p) (by simpa using ne) hb
  cases List.mem_singleton.mp hx
  -- The edge of the two, whichever way it goes.
  obtain ⟨e, he, same⟩ : ∃ e ∈ m.edges, m.component e.1 = m.component p := by
    have either := coupled
    simp only [CouplingMap.coupled, CouplingMap.hasEdge, Bool.or_eq_true, List.contains_iff_mem] at either
    cases either
    case inl forth => exact ⟨_, forth, rfl⟩
    case inr back => exact ⟨_, back, (CouplingMap.component_eq coupled).symm⟩
  have eligible : (Ground.of m k).isEligible [] e := by
    simpa [Ground.isEligible] using (isRoomy_iff (m.inside e he).1).mpr (same ▸ roomy)
  have mem : e ∈ (Ground.of m k).map.edges.filter ((Ground.of m k).isEligible []) :=
    List.mem_filter.mpr ⟨he, eligible⟩
  rw [Ground.bestEdge?]
  split
  case h_1 none => simp [none] at mem
  case h_2 => exact ⟨_, _, rfl⟩

-- In a component with room for the circuit a layout is grown that passes the checks and has the first
-- pair on an edge.
theorem exists_grow (seeds : Seeds d (firstPairs d))
    (room : d.qubits ≠ [] → ∃ p < m.numQubits, d.numQubits ≤ (m.component p).ncard) :
    ∃ lay, grow m d = .ok lay ∧ check m d lay = .ok () ∧
      ∀ a b rest, firstPairs d = (a, b) :: rest → OnEdge m lay a b := by
  have none : ∀ l, ({} : Progress).layout.physical? l = Option.none := fun _ => rfl
  have start : Filed d {} := ⟨fun p => by simp [Layout.mem_occupied, none], by simp [none]⟩
  have ⟨h, region, _, first⟩ := placePairs_spec start (.nil m d.numQubits) seeds.known seeds.apart
    fun x _ => ⟨none x.1, none x.2⟩
  have ⟨s, eq, h', region', placed, grows⟩ := exists_placeQubits h region room (List.Subset.refl _)
  refine ⟨s.layout, bind_eq_ok_iff.mpr ⟨s, eq, rfl⟩, check_eq_ok_iff.mpr ⟨placed, fun x hx => ?_, ?_⟩,
    fun a b rest pairs => (first a b rest pairs ?_).mono grows⟩
  case refine_1 =>
    have found := Layout.mem_pairs_iff.mp (show (x.1, x.2) ∈ s.layout.pairs from hx)
    have used := (h'.occupied x.2).mp (Layout.mem_occupied.mpr ⟨_, found⟩)
    exact ⟨h'.known x.1 (by simp [found]), region'.inside x.2 used⟩
  case refine_2 =>
    have same : ∀ p, p ∈ s.used ↔ p ∈ s.layout.occupied := fun p => (h'.occupied p).symm
    have region := region'.congr same
    exact CouplingMap.isConnectedSubset_iff.mpr ⟨region.inside, region.connected⟩
  case refine_3 =>
    have ⟨two, nonempty⟩ := seeds.two_le (pairs ▸ List.mem_cons_self)
    have ⟨p, q, found⟩ := exists_bestEdge two (room nonempty)
    simp [found]

-- The first edge and the first qubit are placed where there is room only.
theorem grow_eq_error (some : d.qubits ≠ [])
    (full : ¬∃ p < m.numQubits, d.numQubits ≤ (m.component p).ncard) :
    grow m d = .error (.layoutDisconnected []) := by
  have cramped : ∀ p < m.numQubits, (Ground.of m d.numQubits).isRoomy p = false := fun p hp =>
    Bool.eq_false_iff.mpr fun roomy => full ⟨p, hp, (isRoomy_iff hp).mp roomy⟩
  have edge : (Ground.of m d.numQubits).bestEdge? [] = none := by
    refine Option.eq_none_iff_forall_ne_some.mpr fun e found => ?_
    have ⟨he, eligible⟩ := of_bestEdge? found
    simp [Ground.isEligible, cramped e.1 (m.inside e he).1] at eligible
  have pairs : placePairs (.of m d.numQubits) (firstPairs d) {} = {} := by
    cases firstPairs d
    case nil => rfl
    case cons => rw [placePairs, edge]
  have candidates : (Ground.of m d.numQubits).candidates [] = [] :=
    List.filter_eq_nil_iff.mpr fun p hp => by simp [cramped p (List.mem_range.mp hp)]
  have first : ∀ q, placeQubit (.of m d.numQubits) {} q = .error (.layoutDisconnected []) := by
    intro q
    have none : ({} : Progress).layout.physical? q = none := rfl
    rw [placeQubit, none, candidates]
    rfl
  have ⟨q, qs, qubits⟩ := List.exists_cons_of_ne_nil some
  rw [grow, pairs, qubits, List.foldlM_cons, first]
  rfl

-- A layout that is chosen occupies joined qubits, as many as the circuit has.
theorem room_of_check (checked : check m d lay = .ok ()) :
    d.numQubits = 0 ∨ ∃ p < m.numQubits, d.numQubits ≤ (m.component p).ncard := by
  refine or_iff_not_imp_left.mpr fun some => ?_
  have ⟨placed, _, connected⟩ := check_eq_ok_iff.mp checked
  have ⟨inside, connected⟩ := CouplingMap.isConnectedSubset_iff.mp connected
  have ⟨q, hq⟩ := List.exists_mem_of_length_pos (Nat.pos_of_ne_zero some)
  have ⟨p, found⟩ := Option.isSome_iff_exists.mp (placed q hq)
  have hp : p ∈ lay.occupied := Layout.mem_occupied.mpr ⟨q, found⟩
  refine ⟨p, inside p hp, (length_of_check checked).1.trans ?_⟩
  have sub : (lay.occupied.toFinset : Set Nat) ⊆ m.component p := fun b hb =>
    (connected p hp b (by simpa using hb)).mem_component
  have card := Set.ncard_le_ncard sub (CouplingMap.finite_component (inside p hp))
  rwa [Set.ncard_coe_finset, List.toFinset_card_of_nodup Layout.nodup_occupied] at card

-- Without a given layout it is enough that a component has room for the circuit.
theorem exists_choose_none_iff (serial : d.Serial seq) :
    (∃ lay, choose m none d = .ok lay) ↔
      d.numQubits = 0 ∨ ∃ p < m.numQubits, d.numQubits ≤ (m.component p).ncard := by
  simp only [choose_eq_ok_iff]
  constructor
  case mp => exact fun ⟨lay, _, checked⟩ => room_of_check checked
  case mpr =>
    intro room
    have fits : ∀ n i, d.instruction? n = some i → d.Fits i := fun n i op =>
      (serial.fits (n, i) ((serial.mem_iff n i).mpr op)).toFits
    have apart := nodup_firstPairs serial.tied fun n i op =>
      ⟨(fits n i op).nodup, fun _ => serial.mem_wireOps op⟩
    have ⟨lay, grown, checked, _⟩ := exists_grow (seeds_firstPairs fits apart)
      fun some => room.resolve_left fun zero => some (List.eq_nil_of_length_eq_zero zero)
    exact ⟨lay, grown, checked⟩

-- A given layout has to place the circuit's qubits and no others, on joined qubits.
theorem exists_choose_some_iff (inside : ∀ x ∈ lay.pairs, x.2 < m.numQubits) :
    (∃ lay', choose m (some lay) d = .ok lay') ↔
      (∀ q, (lay.physical? q).isSome ↔ q ∈ d.qubits) ∧ m.Connected lay.occupied := by
  have same : ∀ lay', candidate m (some lay) d = .ok lay' ↔ lay = lay' := by simp [candidate]
  simp only [choose_eq_ok_iff, same, exists_eq_left', check_eq_ok_iff,
    CouplingMap.isConnectedSubset_iff]
  have occupied : ∀ p ∈ lay.occupied, p < m.numQubits := by
    intro p hp
    have ⟨l, found⟩ := Layout.mem_occupied.mp hp
    exact inside (l, p) (Layout.mem_pairs_iff.mpr found)
  constructor
  case mp =>
    intro ⟨placed, pairs, _, connected⟩
    refine ⟨fun q => ⟨fun isSome => ?_, placed q⟩, connected⟩
    have ⟨p, found⟩ := Option.isSome_iff_exists.mp isSome
    exact (pairs (q, p) (Layout.mem_pairs_iff.mpr found)).1
  case mpr =>
    intro ⟨exactly, connected⟩
    refine ⟨fun q hq => (exactly q).mpr hq, fun x hx => ⟨(exactly x.1).mp ?_, inside x hx⟩, occupied,
      connected⟩
    simp [Layout.mem_pairs_iff.mp (show (x.1, x.2) ∈ lay.pairs from hx)]

section Refusal

-- The errors of placement.
def Refusal : CompileError → Prop
  | .circuitTooLarge .. | .layoutIncomplete _ | .invalidLayout _ | .layoutDisconnected _ => True
  | _ => False

variable {e : CompileError}

theorem refusal_of_grow (h : grow m d = .error e) : Refusal e := by
  have none := bind_eq_error_iff.mp h
  have failed := none.resolve_right fun ⟨_, _, other⟩ => by contradiction
  have ⟨s, q, _, placing⟩ := of_foldlM_eq_error (fun _ => True) (fun _ _ _ _ _ => trivial) trivial failed
  rw [placeQubit] at placing
  split at placing
  case isTrue => contradiction
  case isFalse =>
    split at placing
    case h_1 =>
      cases placing
      trivial
    case h_2 => contradiction

theorem refusal_of_check (h : check m d lay = .error e) : Refusal e := by
  cases bind_eq_error_iff.mp h
  case inl missing =>
    have ⟨q, _, missing⟩ := of_forM_eq_error missing
    split at missing
    case isTrue => contradiction
    case isFalse =>
      cases missing
      trivial
  case inr rest =>
    have ⟨_, _, h⟩ := rest
    cases bind_eq_error_iff.mp h
    case inl pair =>
      have ⟨x, _, pair⟩ := of_forM_eq_error pair
      rw [checkPair] at pair
      split at pair
      case isTrue =>
        cases pair
        trivial
      case isFalse =>
        split at pair
        case isTrue =>
          cases pair
          trivial
        case isFalse => contradiction
    case inr rest =>
      have ⟨_, _, h⟩ := rest
      split at h
      case isTrue =>
        cases h
        trivial
      case isFalse => contradiction

theorem refusal_of_choose (h : choose m given d = .error e) : Refusal e := by
  rw [choose_eq] at h
  split at h
  case isTrue =>
    cases h
    trivial
  case isFalse =>
    cases bind_eq_error_iff.mp h
    case inl h =>
      cases given
      case none => exact refusal_of_grow h
      case some => contradiction
    case inr rest =>
      have ⟨lay, _, h⟩ := rest
      exact refusal_of_check ((bind_eq_error_iff.mp h).resolve_right fun ⟨_, _, other⟩ => by
        contradiction)

end Refusal

end CircuitRouting.Placement

namespace CircuitRouting.Pass

variable {w : Workspace} {m : CouplingMap} {given : Option Layout}

theorem run_placement (device : w.properties.couplingMap = some m) :
    (placement given).run w =
      match Placement.choose m given w.dag with
      | .ok lay => (.ok (), { w with
          properties := { w.properties with
            layout := some lay
            published := w.properties.published.insert .initialLayout lay } })
      | .error e => (.error e, w) := by
  simp only [placement, device]
  cases Placement.choose m given w.dag <;> rfl

end CircuitRouting.Pass
