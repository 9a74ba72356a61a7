import CircuitRouting.Proofs.Dag.Intact
import CircuitRouting.Proofs.Dag.Made
import CircuitRouting.Proofs.Pass.Placement

/-!
# Placement without a given layout

A circuit is refused if the device has fewer qubits, or if none of its components has as many. It is
placed in all other cases, on joined qubits, and the first two-qubit gate of the first layer that has
one is placed along an edge. The gates of that layer may share no qubit: a later one would move the
qubits of the first.
-/

namespace CircuitRouting

namespace Placement

variable {m : CouplingMap} {d : Dag} {lay : Layout} {k : Nat}

-- There is nothing to place, or a component has room for all of it.
def HasRoom (m : CouplingMap) (k : Nat) : Prop :=
  k = 0 ∨ ∃ p < m.numQubits, k ≤ (m.component p).ncard

-- A layout of exactly the circuit's qubits on joined qubits of the device.
structure Seated (m : CouplingMap) (d : Dag) (lay : Layout) : Prop where
  placed : ∀ q, (lay.physical? q).isSome ↔ q ∈ d.qubits
  injective : ∀ a b p, lay.physical? a = some p → lay.physical? b = some p → a = b
  inside : ∀ p ∈ lay.occupied, p < m.numQubits
  connected : m.Connected lay.occupied
  -- The first two-qubit gate of the first layer that has one.
  first : ∀ pre layer post a b rest, d.layers = pre ++ layer :: post →
    (∀ l ∈ pre, d.pairsOf l = []) → d.pairsOf layer = (a, b) :: rest → OnEdge m lay a b

theorem firstPairs_eq {pre post : List (List Nat)} {layer : List Nat}
    (cut : d.layers = pre ++ layer :: post) (before : ∀ l ∈ pre, d.pairsOf l = [])
    (here : d.pairsOf layer ≠ []) : firstPairs d = d.pairsOf layer := by
  have skip : (pre.map d.pairsOf).find? (fun pairs => !pairs.isEmpty) = none := by
    refine List.find?_eq_none.mpr (List.forall_mem_map.mpr fun l hl => ?_)
    simp [before l hl]
  rw [firstPairs, cut, List.map_append, List.find?_append, skip, Option.none_or, List.map_cons,
    List.find?_cons_of_pos (by simpa using here), Option.getD_some]

theorem seated_of_check (checked : check m d lay = .ok ())
    (first : ∀ a b rest, firstPairs d = (a, b) :: rest → OnEdge m lay a b) : Seated m d lay := by
  have ⟨placed, pairs, connected⟩ := check_eq_ok_iff.mp checked
  have ⟨inside, connected⟩ := CouplingMap.isConnectedSubset_iff.mp connected
  refine ⟨fun q => ⟨fun isSome => ?_, placed q⟩, fun a b p => Layout.physical?_injective, inside,
    connected, fun pre layer post a b rest cut before here => first a b rest ?_⟩
  case refine_1 =>
    have ⟨p, found⟩ := Option.isSome_iff_exists.mp isSome
    exact (pairs (q, p) (Layout.mem_pairs_iff.mpr found)).1
  case refine_2 => exact (firstPairs_eq cut before (by simp [here])).trans here

-- The two-qubit gates of the first layer that has any share no qubit.
def Apart (d : Dag) : Prop :=
  ((firstPairs d).flatMap fun x => [x.1, x.2]).Nodup

-- They share none where the checks of the graph pass and find what they are to find.
theorem apart_of_intact (verified : d.verify = .ok ()) (h : d.Intact) : Apart d :=
  nodup_firstPairs (h.tied verified) fun n i op =>
    have ⟨nodup, on⟩ := h.paths n i op
    ⟨.of_map _ (List.nodup_append.mp nodup).1, on⟩

theorem exists_choose (made : d.Made) (apart : Apart d) (room : HasRoom m d.numQubits) :
    ∃ lay, choose m none d = .ok lay ∧ Seated m d lay := by
  have seeds := seeds_firstPairs (fun _ _ => made.fits) apart
  have ⟨lay, grown, checked, first⟩ := exists_grow seeds fun nonempty =>
    room.resolve_left fun zero => nonempty (List.eq_nil_of_length_eq_zero zero)
  exact ⟨lay, choose_eq_ok_iff.mpr ⟨grown, checked⟩, seated_of_check checked first⟩

theorem choose_eq_tooLarge (large : m.numQubits < d.numQubits) :
    choose m none d = .error (.circuitTooLarge d.numQubits m.numQubits) := by
  rw [choose_eq, if_pos large]

theorem choose_eq_disconnected (small : d.numQubits ≤ m.numQubits) (full : ¬HasRoom m d.numQubits) :
    choose m none d = .error (.layoutDisconnected []) := by
  have ⟨nonzero, full⟩ := not_or.mp full
  have grown : candidate m none d = .error (.layoutDisconnected []) :=
    grow_eq_error (fun empty => nonzero (by simp [Dag.numQubits, empty])) full
  rw [choose_eq, if_neg (by omega), grown]
  rfl

end Placement

namespace Pass

open Placement

-- The pass refuses what cannot be placed, and places all the rest.
theorem run_placement_automatic (w : Workspace) (m : CouplingMap)
    (map : w.properties.couplingMap = some m) (made : w.dag.Made) (apart : Apart w.dag) :
    (m.numQubits < w.dag.numQubits →
      (placement none).run w = (.error (.circuitTooLarge w.dag.numQubits m.numQubits), w)) ∧
    (w.dag.numQubits ≤ m.numQubits → HasRoom m w.dag.numQubits →
      ∃ lay w', (placement none).run w = (.ok (), w') ∧ w'.dag = w.dag ∧
        w'.properties.layout = some lay ∧
        w'.properties.published.get? .initialLayout = some lay ∧ Seated m w.dag lay) ∧
    (w.dag.numQubits ≤ m.numQubits → ¬HasRoom m w.dag.numQubits →
      (placement none).run w = (.error (.layoutDisconnected []), w)) := by
  simp only [placement, map]
  refine ⟨fun large => ?_, fun small room => ?_, fun small full => ?_⟩
  case refine_1 =>
    rw [choose_eq_tooLarge large]
    rfl
  case refine_2 =>
    obtain ⟨lay, chosen, seated⟩ := exists_choose made apart room
    rw [chosen]
    exact ⟨lay, _, rfl, rfl, rfl, Store.get?_set_self .., seated⟩
  case refine_3 =>
    rw [choose_eq_disconnected small full]
    rfl

-- Two qubits that are joined to each other only, and room for four among the others.
def islands : CouplingMap := .build 6 [(0, 1), (3, 2), (3, 4), (5, 4)] (by decide)

-- The gates of the first layer act on one qubit each, those of the second on two.
def stranded : Workspace where
  dag := Dag.edited [.addQubit 0, .addQubit 1, .addQubit 2, .addQubit 3, .apply (.gate .h [0]),
    .apply (.gate .h [1]), .apply (.cx 2 1), .apply (.cx 0 3), .apply (.cx 1 3)]
  properties := { couplingMap := some islands }

theorem run_placement_automatic_stranded :
    stranded.dag.Made ∧ Apart stranded.dag ∧ stranded.dag.numQubits ≤ islands.numQubits ∧
      HasRoom islands stranded.dag.numQubits ∧
      ∃ lay w', (placement none).run stranded = (.ok (), w') ∧ w'.dag = stranded.dag ∧
        w'.properties.layout = some lay ∧
        w'.properties.published.get? .initialLayout = some lay ∧ Seated islands stranded.dag lay := by
  have made : stranded.dag.Made := Dag.made_edited _
  have ⟨_, serial⟩ : ∃ seq, stranded.dag.Serial seq := Dag.exists_serial_edited (by decide)
  have apart : Apart stranded.dag := apart_of_intact serial.verify serial.sound.intact
  have small : stranded.dag.numQubits ≤ islands.numQubits := by decide +kernel
  have room : HasRoom islands stranded.dag.numQubits := by
    refine .inr ⟨3, by decide, ?_⟩
    rw [← CouplingMap.componentSizes_eq (by decide)]
    decide +kernel
  exact ⟨made, apart, small, room,
    (run_placement_automatic stranded islands rfl made apart).2.1 small room⟩

-- Two controlled NOTs share the qubit 0. The second lists the bits 1 and 2, has no edge in on them, and
-- has two in the place of those from a barrier on the bit 0, which it does not list. So it does not
-- wait for the first.
def entangled : List Dag.Edit :=
  [.addQubit 0, .addQubit 1, .addQubit 2, .addClbit 0, .addClbit 1, .addClbit 2,
    .hold [0, 1], .hold [0, 0, 1, 1], .removeOp 12, .removeOp 13, .hold [0, 0, 1, 1], .hold [2],
    .hold [2, 2, 2], .hold [0, 1, 2], .removeOp 12, .removeOp 14] ++ Dag.Edit.cut 13 ++
  [.hold [2], .hold [2, 2], .removeOp 13, .removeOp 14, .hold [1, 1, 2, 2], .hold [0],
    .apply (.barrier [1]), .apply (.cx 0 1), .apply ⟨.barrier, [0, 2], [0, 0, 1, 2]⟩, .hold [0, 0],
    .removeOp 13] ++ Dag.Edit.cut 18 ++
  [.substitute 17 [{ Instruction.cx 0 2 with clbits := [1, 2] }]] ++ Dag.Edit.cut 14

def entangledChain : Workspace where
  dag := Dag.edited entangled
  properties := { couplingMap := some (.linear 5) }

-- The checks pass, and the first gate of the layer is on qubits that are not coupled.
theorem run_placement_entangled : entangledChain.dag.verify = .ok () ∧
    entangledChain.dag.layers = [[12, 15], [16, 17]] ∧
    entangledChain.dag.pairsOf [12, 15] = [] ∧
    entangledChain.dag.pairsOf [16, 17] = [(0, 1), (0, 2)] ∧
    ∃ lay w', (placement none).run entangledChain = (.ok (), w') ∧
      w'.properties.layout = some lay ∧ lay.pairs = [(0, 3), (1, 2), (2, 4)] ∧
      ¬Seated (.linear 5) entangledChain.dag lay := by
  have verified : entangledChain.dag.verify = .ok () := by decide +kernel
  have layers : entangledChain.dag.layers = [[12, 15], [16, 17]] := by decide +kernel
  have before : entangledChain.dag.pairsOf [12, 15] = [] := by decide +kernel
  have here : entangledChain.dag.pairsOf [16, 17] = [(0, 1), (0, 2)] := by decide +kernel
  have chosen : (choose (.linear 5) none entangledChain.dag).toOption.map Layout.pairs =
      some [(0, 3), (1, 2), (2, 4)] := by
    decide +kernel
  have ⟨lay, grown, pairs⟩ := Option.map_eq_some_iff.mp chosen
  have at_0 : lay.physical? 0 = some 3 := Layout.mem_pairs_iff.mp (by simp [pairs])
  have at_1 : lay.physical? 1 = some 2 := Layout.mem_pairs_iff.mp (by simp [pairs])
  have map : entangledChain.properties.couplingMap = some (.linear 5) := by rw [entangledChain]
  have ran : (placement none).run entangledChain = _ := run_placement map
  rw [toOption_eq_some_iff.mp grown] at ran
  refine ⟨verified, layers, before, here, lay, _, ran, rfl, pairs, fun seated => ?_⟩
  have ⟨p, q, hp, hq, joined⟩ :=
    seated.first [[12, 15]] [16, 17] [] 0 1 [(0, 2)] layers (by simpa using before) here
  rw [at_0] at hp
  rw [at_1] at hq
  cases hp
  cases hq
  exact absurd joined (by decide)

end Pass

end CircuitRouting
