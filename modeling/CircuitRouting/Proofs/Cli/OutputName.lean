import CircuitRouting.Cli.Compile
import CircuitRouting.Proofs.Text
import Mathlib.Data.List.Basic

/-!
# The file names of a batch

A circuit whose file name was asked for before gets its position added to it. What comes out is not
compared to the other names, so two circuits share a file exactly if one of them asks for the name that
another one gets in this way.
-/

namespace CircuitRouting.OutputName

variable {entries : List (String × Bool)} {b b' s : String} {i j : Nat}

-- The names that circuits ask for; those that failed ask for none.
def wanted (entries : List (String × Bool)) : List (Option String) :=
  entries.map fun (name, compiled) => if compiled then some (base name) else none

-- A name with a position.
def numbered (b : String) (i : Nat) : String :=
  b ++ "_" ++ toString i

-- A circuit asks for a name that one before it has asked for.
def Repeats (entries : List (String × Bool)) (i : Nat) (b : String) : Prop :=
  (wanted entries)[i]? = some (some b) ∧ some b ∈ (wanted entries).take i

-- The name that a repeated one becomes is not asked for by any circuit.
def Clear (entries : List (String × Bool)) : Prop :=
  ∀ i b, Repeats entries i b → some (numbered b i) ∉ wanted entries

theorem toList_numbered (b : String) (i : Nat) :
    (numbered b i).toList = b.toList ++ '_' :: (toString i).toList := by
  simp [numbered]

theorem numbered_inj (eq : numbered b i = numbered b' j) : b = b' ∧ i = j := by
  replace eq := congrArg String.toList eq
  rw [toList_numbered, toList_numbered] at eq
  have ⟨name, _, position⟩ :=
    append_cons_inj_last (MadeOf.decimal i) (MadeOf.decimal j) (by decide) (by decide) eq
  exact ⟨String.toList_inj.mp name, toString_inj position⟩

theorem numbered_ne (b : String) (i : Nat) : numbered b i ≠ b := by
  intro eq
  have length := congrArg (List.length ∘ String.toList) eq
  simp [toList_numbered] at length

@[simp]
theorem wanted_cons (name : String) (compiled : Bool) :
    wanted ((name, compiled) :: entries) =
      (if compiled then some (base name) else none) :: wanted entries :=
  rfl

-- The induction is on the circuits, with the names that those before them have taken.
theorem getElem?_assign (taken : List String) (k : Nat) :
    (assign taken (entries.zipIdx k))[i]? = (wanted entries)[i]?.map (Option.map fun b =>
      if b ∈ taken ∨ some b ∈ (wanted entries).take i then numbered b (k + i) else b) := by
  induction entries generalizing taken k i
  case nil => simp [assign, wanted]
  case cons entry entries hi =>
    have ⟨name, compiled⟩ := entry
    cases i
    case zero =>
      cases compiled
      case false => simp [assign]
      case true => by_cases repeated : base name ∈ taken <;> simp [assign, repeated, numbered]
    case succ i =>
      rw [List.zipIdx_cons, wanted_cons, List.getElem?_cons_succ, List.take_succ_cons]
      cases compiled
      case false => simp [assign, hi, Nat.add_assoc, Nat.add_comm 1]
      case true =>
        by_cases repeated : base name ∈ taken
        case pos =>
          have same : ∀ b, b ∈ taken ∨ b = base name ∨ some b ∈ (wanted entries).take i ↔
              b ∈ taken ∨ some b ∈ (wanted entries).take i := by
            grind
          simp [assign, repeated, hi, same, Nat.add_assoc, Nat.add_comm 1]
        case neg =>
          simp [assign, repeated, hi, or_left_comm, or_assoc, Nat.add_assoc, Nat.add_comm 1]

theorem getElem?_stems : (stems entries)[i]? = (wanted entries)[i]?.map (Option.map fun b =>
    if some b ∈ (wanted entries).take i then numbered b i else b) := by
  simp [stems, getElem?_assign]

theorem getElem?_stems_eq_iff : (stems entries)[i]? = some (some s) ↔
    (∃ b, Repeats entries i b ∧ numbered b i = s) ∨
      (wanted entries)[i]? = some (some s) ∧ some s ∉ (wanted entries).take i := by
  simp only [getElem?_stems, Option.map_eq_some_iff]
  refine ⟨?_, ?_⟩
  case refine_1 =>
    rintro ⟨_, asked, b, rfl, eq⟩
    split at eq
    case isTrue repeated => exact .inl ⟨b, ⟨asked, repeated⟩, eq⟩
    case isFalse first => exact .inr (eq ▸ ⟨asked, first⟩)
  case refine_2 =>
    intro h
    cases h
    case inl taken =>
      have ⟨b, repeated, eq⟩ := taken
      exact ⟨_, repeated.1, b, rfl, by rw [if_pos repeated.2, eq]⟩
    case inr own => exact ⟨_, own.1, s, rfl, if_neg own.2⟩

-- Exactly the circuits that compiled have file names.
theorem map_isSome_stems (entries : List (String × Bool)) :
    (stems entries).map Option.isSome = entries.map Prod.snd := by
  have asked : (wanted entries).map Option.isSome = entries.map Prod.snd := by
    rw [wanted, List.map_map]
    refine List.map_congr_left fun (name, compiled) _ => ?_
    cases compiled <;> rfl
  rw [← asked]
  refine List.ext_getElem? fun i => ?_
  simp [getElem?_stems, Function.comp_def]

theorem isSome_of_getElem?_stems {entry : String × Bool} {o : Option String}
    (h : (stems entries)[i]? = some o) (h' : entries[i]? = some entry) : o.isSome = entry.2 := by
  have same := congrArg (·[i]?) (map_isSome_stems entries)
  simpa [h, h'] using same

theorem length_stems : (stems entries).length = entries.length := by
  simpa using congrArg List.length (map_isSome_stems entries)

theorem madeOf_base (name : String) : MadeOf isSafe (base name) := by
  rw [base]
  split
  case isTrue => decide
  case isFalse =>
    refine .ofList (List.forall_mem_map.mpr fun c _ => ?_)
    split
    case isTrue safe => exact safe
    case isFalse => rfl

theorem madeOf_of_mem_wanted (h : some b ∈ wanted entries) : MadeOf isSafe b := by
  have ⟨(name, compiled), _, eq⟩ := List.mem_map.mp h
  cases compiled
  case false => simp at eq
  case true => exact Option.some.inj eq ▸ madeOf_base name

theorem madeOf_of_mem_stems (h : some s ∈ stems entries) : MadeOf isSafe s := by
  have ⟨i, found⟩ := List.mem_iff_getElem?.mp h
  cases getElem?_stems_eq_iff.mp found
  case inl taken =>
    have ⟨b, repeated, eq⟩ := taken
    have name := madeOf_of_mem_wanted (List.mem_of_getElem? repeated.1)
    have digits := (MadeOf.decimal i).imp (q := isSafe) fun c h => by
      simp [isSafe, Char.isAlphanum, h]
    exact eq ▸ (name.append (by decide)).append digits
  case inr own => exact madeOf_of_mem_wanted (List.mem_of_getElem? own.1)

-- No text is at two positions.
theorem nodup_filterMap_iff {l : List (Option String)} :
    (l.filterMap id).Nodup ↔ ∀ (i j : Nat) s, i < j → l[i]? = some (some s) → l[j]? ≠ some (some s) := by
  rw [List.Nodup, List.pairwise_filterMap, List.pairwise_iff_getElem]
  grind

theorem stems_nodup_iff : ((stems entries).filterMap id).Nodup ↔ Clear entries := by
  rw [nodup_filterMap_iff]
  refine ⟨fun distinct i b repeated asked => ?_, fun clear i j s lt hi hj => ?_⟩
  case refine_1 =>
    -- The first circuit that asks for the name gets it.
    have ⟨before, after, eq, first⟩ := List.eq_append_cons_of_mem asked
    have here : (stems entries)[i]? = some (some (numbered b i)) :=
      getElem?_stems_eq_iff.mpr (.inl ⟨b, repeated, rfl⟩)
    have there : (stems entries)[before.length]? = some (some (numbered b i)) :=
      getElem?_stems_eq_iff.mpr (.inr (by simp [eq, first]))
    have ne : i ≠ before.length := by
      rintro rfl
      have same := repeated.1
      simp [eq, numbered_ne] at same
    exact (Nat.lt_or_gt_of_ne ne).elim (distinct _ _ _ · here there) (distinct _ _ _ · there here)
  case refine_2 =>
    rw [getElem?_stems_eq_iff] at hi hj
    cases hi <;> cases hj
    case inl.inl here there =>
      have ⟨_, _, eq⟩ := here
      have ⟨_, _, eq'⟩ := there
      exact absurd (numbered_inj (eq.trans eq'.symm)).2 (by omega)
    case inl.inr here there =>
      have ⟨b, repeated, eq⟩ := here
      exact clear i b repeated (eq ▸ List.mem_of_getElem? there.1)
    case inr.inl here there =>
      have ⟨b, repeated, eq⟩ := there
      exact clear j b repeated (eq ▸ List.mem_of_getElem? here.1)
    case inr.inr here there =>
      exact there.2 (List.mem_of_getElem? (by rw [List.getElem?_take_of_lt lt, here.1]))

end CircuitRouting.OutputName
