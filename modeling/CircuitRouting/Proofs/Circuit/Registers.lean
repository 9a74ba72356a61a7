import CircuitRouting.Proofs.Circuit.Built

/-!
# Registers and the numbers of their bits

If no two registers have the same name, a position has the number `k` exactly if it is the `k`-th of all
positions. The registers of a circuit that is built are of this kind.
-/

namespace CircuitRouting

namespace Register

variable {rs : List Register} {r : Register} {name : String} {index offset k : Nat}

theorem length_bits (r : Register) : r.bits.length = r.size := by
  simp [bits]

theorem allBits_cons : allBits (r :: rs) = r.bits ++ allBits rs := rfl

theorem total_cons : total (r :: rs) = r.size + total rs := rfl

theorem length_allBits (rs : List Register) : (allBits rs).length = total rs := by
  induction rs
  case nil => rfl
  case cons r rs hi => rw [allBits_cons, List.length_append, length_bits, hi, total_cons]

-- Empty registers do not count.
theorem total_filter (rs : List Register) : total (rs.filter (0 < ·.size)) = total rs := by
  induction rs
  case nil => rfl
  case cons r rs hi =>
    by_cases empty : r.size = 0
    case pos => simp [total_cons, hi, empty]
    case neg => simp [total_cons, hi, Nat.pos_of_ne_zero empty]

theorem getElem?_bits : r.bits[k]? = some ⟨name, index⟩ ↔ r.name = name ∧ k = index ∧ index < r.size := by
  by_cases lt : k < r.size
  case pos =>
    simp only [bits, List.getElem?_map, List.getElem?_range lt, Option.map_some, Option.some.injEq,
      BitRef.mk.injEq]
    refine and_congr_right fun _ => ?_
    omega
  case neg =>
    rw [List.getElem?_eq_none (by rw [length_bits]; omega)]
    simp only [reduceCtorEq, false_iff]
    omega

theorem name_mem_of_mem_allBits {b : BitRef} (h : b ∈ allBits rs) : b.register ∈ rs.map Register.name := by
  have ⟨r, hr, hb⟩ := List.mem_flatMap.mp h
  have ⟨_, _, eq⟩ := List.mem_map.mp hb
  exact List.mem_map.mpr ⟨r, hr, by rw [← eq]⟩

theorem locateFrom_eq_ok_iff (names : (rs.map Register.name).Nodup) :
    locateFrom name index offset rs = .ok k ↔
      offset ≤ k ∧ (allBits rs)[k - offset]? = some ⟨name, index⟩ := by
  induction rs generalizing offset
  case nil => simp [locateFrom, allBits]
  case cons r rs hi =>
    have ⟨fresh, names⟩ := List.nodup_cons.mp names
    rw [locateFrom, allBits_cons, List.getElem?_append, length_bits]
    by_cases here : r.name = name
    case pos =>
      -- The later registers have other names.
      have later : ∀ n, (allBits rs)[n]? ≠ some (BitRef.mk name index) := fun n found =>
        fresh (here ▸ name_mem_of_mem_allBits (List.mem_of_getElem? found))
      rw [if_pos here]
      by_cases lt : index < r.size
      case pos =>
        rw [if_pos lt, Except.ok.injEq]
        split
        case isTrue inside =>
          rw [getElem?_bits]
          simp only [here, true_and]
          omega
        case isFalse beyond =>
          simp only [later, and_false, iff_false]
          omega
      case neg =>
        rw [if_neg lt]
        split
        case isTrue =>
          rw [getElem?_bits]
          simp [lt]
        case isFalse => simp [later]
    case neg =>
      rw [if_neg here, hi names]
      split
      case isTrue =>
        rw [getElem?_bits]
        simp only [here, false_and, and_false, iff_false, not_and]
        omega
      case isFalse =>
        rw [Nat.sub_add_eq]
        refine and_congr_left fun _ => ?_
        omega

theorem locate_eq_ok_iff (names : (rs.map Register.name).Nodup) :
    locate rs name index = .ok k ↔ (allBits rs)[k]? = some ⟨name, index⟩ := by
  simp [locate, locateFrom_eq_ok_iff names]

-- A position stands at one place only.
theorem getElem?_allBits_inj (names : (rs.map Register.name).Nodup) {b : BitRef} {k' : Nat}
    (h : (allBits rs)[k]? = some b) (h' : (allBits rs)[k']? = some b) : k = k' := by
  have located := (locate_eq_ok_iff names).mpr h
  have located' := (locate_eq_ok_iff names).mpr h'
  exact Except.ok.inj (located.symm.trans located')

end Register

namespace Circuit

variable {c : Circuit} {name : String} {size : Nat}

theorem of_ofDagWithRegisters {d : Dag} {qregs cregs : List Register}
    (h : ofDagWithRegisters name d qregs cregs = .ok c) :
    c.dag = d ∧ c.qregs = qregs.filter (0 < ·.size) ∧ c.cregs = cregs.filter (0 < ·.size) := by
  rw [ofDagWithRegisters] at h
  split at h
  case isTrue => contradiction
  case isFalse =>
    split at h
    case isTrue => contradiction
    case isFalse =>
      cases h
      exact ⟨rfl, rfl, rfl⟩

theorem nodup_concat_name {rs : List Register} (names : (rs.map Register.name).Nodup)
    (fresh : ¬rs.any fun r => r.name == name) : ((rs ++ [Register.mk name size]).map Register.name).Nodup := by
  rw [List.map_append, List.nodup_append]
  refine ⟨names, by simp, fun a ha b hb eq => fresh ?_⟩
  have ⟨r, hr, found⟩ := List.mem_map.mp ha
  have given : b = name := by simpa using hb
  exact List.any_eq_true.mpr ⟨r, hr, by simp [found, eq, given]⟩

namespace Built

theorem nodup_qregs (h : c.Built) : (c.qregs.map Register.name).Nodup := by
  induction h
  case named => exact .nil
  case rename hi => exact hi
  case addQreg c _ name _ _ _ eq hi =>
    rw [of_addQreg eq]
    refine nodup_concat_name hi fun taken => ?_
    rw [Circuit.addQreg, if_pos taken] at eq
    contradiction
  case addCreg eq hi => exact of_addCreg eq ▸ hi
  case append hi => exact hi

theorem nodup_cregs (h : c.Built) : (c.cregs.map Register.name).Nodup := by
  induction h
  case named => exact .nil
  case rename hi => exact hi
  case addQreg eq hi => exact of_addQreg eq ▸ hi
  case addCreg c _ name _ _ _ eq hi =>
    rw [of_addCreg eq]
    refine nodup_concat_name hi fun taken => ?_
    rw [Circuit.addCreg, if_pos taken] at eq
    contradiction
  case append hi => exact hi

end Built

end Circuit

end CircuitRouting
