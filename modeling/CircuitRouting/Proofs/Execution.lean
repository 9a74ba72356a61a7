import CircuitRouting.Batch
import CircuitRouting.Proofs.Except

/-!
# Counts that add up

The counts of an execution are added with 64 bits, so what is accepted has the requested total up to laps
around the 64 bits. It has exactly this total if the sum fits into them.
-/

namespace CircuitRouting

namespace Counts

variable {shots : UInt64} {cs cs' : Counts}

-- The number of shots that the counts stand for.
def exactTotal (cs : Counts) : Nat := natSum (cs.map fun x => x.2.toNat)

theorem toNat_foldl_add (ns : List UInt64) (n : UInt64) :
    (ns.foldl (· + ·) n).toNat = (n.toNat + natSum (ns.map UInt64.toNat)) % UInt64.size := by
  induction ns generalizing n
  case nil => exact (Nat.mod_eq_of_lt n.toNat_lt).symm
  case cons m ns hi =>
    calc (ns.foldl (· + ·) (n + m)).toNat
      _ = ((n.toNat + m.toNat) % UInt64.size + natSum (ns.map UInt64.toNat)) % UInt64.size := by
        rw [hi, UInt64.toNat_add]
      _ = (n.toNat + natSum ((m :: ns).map UInt64.toNat)) % UInt64.size := by
        rw [Nat.mod_add_mod, Nat.add_assoc, List.map_cons, natSum_cons]

-- The total that is compared has lost its laps.
theorem toNat_total (cs : Counts) : (total cs).toNat = exactTotal cs % UInt64.size := by
  rw [total, toNat_foldl_add, List.map_map, UInt64.toNat_zero, Nat.zero_add]
  rfl

theorem total_eq_iff : total cs = shots ↔ ∃ laps, exactTotal cs = shots.toNat + laps * UInt64.size := by
  rw [← UInt64.toNat_inj, toNat_total]
  constructor
  case mp => exact fun eq => ⟨exactTotal cs / UInt64.size, by rw [← eq, Nat.mod_add_div']⟩
  case mpr =>
    rintro ⟨laps, eq⟩
    rw [eq, Nat.add_mul_mod_self_right, Nat.mod_eq_of_lt shots.toNat_lt]

theorem check_eq_ok_iff : check shots cs = .ok cs' ↔
    cs = cs' ∧ ∃ laps, exactTotal cs' = shots.toNat + laps * UInt64.size := by
  rw [check, ← total_eq_iff]
  split
  case isTrue same =>
    rw [Except.ok.injEq, iff_self_and]
    exact fun eq => eq ▸ same
  case isFalse other =>
    simp only [reduceCtorEq, false_iff, not_and]
    exact fun eq => eq ▸ other

-- What fits into 64 bits has gone no lap.
theorem exactTotal_eq_iff {laps : Nat} (h : exactTotal cs = shots.toNat + laps * UInt64.size) :
    exactTotal cs = shots.toNat ↔ exactTotal cs < UInt64.size := by
  constructor
  case mp => exact fun eq => eq ▸ shots.toNat_lt
  case mpr =>
    intro fits
    rw [← Nat.mod_eq_of_lt fits, h, Nat.add_mul_mod_self_right, Nat.mod_eq_of_lt shots.toNat_lt]

end Counts

namespace Batch

variable (run : Executor) (shots : UInt64)

-- What an execution reports about an entry of the batch.
structure Reports (entry : String × Except CompileError CompiledCircuit)
    (report : String × Except ExecutionError Counts) : Prop where
  name : report.1 = entry.1
  accepted : ∀ cs, report.2 = .ok cs ↔ ∃ c, entry.2 = .ok c ∧ run c shots = .ok cs ∧
    ∃ laps, cs.exactTotal = shots.toNat + laps * UInt64.size
  exact : ∀ cs, report.2 = .ok cs → (cs.exactTotal = shots.toNat ↔ cs.exactTotal < UInt64.size)

theorem executeEntry_eq_ok_iff {name : String} {r : Except CompileError CompiledCircuit} {cs : Counts} :
    executeEntry run shots name r = .ok cs ↔ ∃ c, r = .ok c ∧ run c shots = .ok cs ∧
      ∃ laps, cs.exactTotal = shots.toNat + laps * UInt64.size := by
  cases r
  case error => simp [executeEntry]
  case ok c =>
    refine bind_eq_ok_iff.trans ?_
    simp [Counts.check_eq_ok_iff]

-- The entries are reported in their order.
theorem execute_reports (b : Batch) : List.Forall₂ (Reports run shots) b.entries (b.execute run shots) := by
  rw [execute, List.forall₂_map_right_iff, List.forall₂_same]
  intro (name, r) _
  refine ⟨rfl, fun cs => executeEntry_eq_ok_iff run shots, fun cs ok => ?_⟩
  have ⟨_, _, _, _, sum⟩ := (executeEntry_eq_ok_iff run shots).mp ok
  exact Counts.exactTotal_eq_iff sum

def standard : Compiler where
  options := { seed := some 0 }
  valid := by decide +kernel

def pair : Circuit := .ofSize "pair" 2 2

-- Counts that go once around.
def lap : Counts := [("00", 0x8000000000000000), ("11", 0x8000000000000000)]

-- No shot is requested, and a lap is accepted.
theorem execute_accepts_lap : ∃ c,
    (standard.compileBatch (fun _ => 0) [pair]).entries = [("pair", .ok c)] ∧
    (standard.compileBatch (fun _ => 0) [pair]).execute (fun _ _ => .ok lap) 0 = [("pair", .ok lap)] ∧
    lap.exactTotal = UInt64.size := by
  have compiled : (standard.compile 0 pair).toOption.isSome := by decide +kernel
  have ⟨c, compiled⟩ := Option.isSome_iff_exists.mp compiled
  have entries : (standard.compileBatch (fun _ => 0) [pair]).entries = [("pair", .ok c)] := by
    rw [← toOption_eq_some_iff.mp compiled]
    rfl
  have total : lap.exactTotal = UInt64.size := by decide +kernel
  have accepted : executeEntry (fun _ _ => .ok lap) 0 "pair" (.ok c) = .ok lap :=
    (executeEntry_eq_ok_iff _ 0).mpr ⟨c, rfl, rfl, 1, total⟩
  refine ⟨c, entries, ?_, total⟩
  rw [execute, entries]
  exact congrArg (fun report => [("pair", report)]) accepted

end Batch

end CircuitRouting
