import CircuitRouting.Angle
import CircuitRouting.Proofs.Text

/-!
# The characters of angles

The text of an angle has digits and a few other characters. No comma, closing parenthesis or line break
is among them, so that a list of angles can be taken apart again.
-/

namespace CircuitRouting

-- Digits, and the characters of signs, points, fractions and names.
def isAngleChar (ch : Char) : Bool :=
  ch.isDigit || ch ∈ ['-', '.', '*', '/', 'p', 'i', 'N', 'a', 'n', 'f']

theorem MadeOf.angle_of_digits {s : String} (h : MadeOf Char.isDigit s) : MadeOf isAngleChar s :=
  h.imp fun _ digit => by simp [isAngleChar, digit]

namespace Decimal

theorem madeOf_zeros (n : Nat) : MadeOf isAngleChar (zeros n) :=
  .ofList fun _ hch => (List.mem_replicate.mp hch).2 ▸ by decide

theorem madeOf_positional (d : Decimal) : MadeOf isAngleChar d.positional := by
  have digits : ∀ n : Nat, MadeOf isAngleChar (toString n) := fun n => (MadeOf.decimal n).angle_of_digits
  rw [positional]
  split
  case isTrue =>
    split
    case isTrue => decide
    case isFalse => exact (digits _).append (madeOf_zeros _)
  case isFalse =>
    dsimp only
    split
    case isTrue =>
      refine (MadeOf.append (.ofList ?_) (by decide)).append (.ofList ?_)
      case refine_1 => exact fun ch hch => digits _ ch (List.mem_of_mem_take hch)
      case refine_2 => exact fun ch hch => digits _ ch (List.mem_of_mem_drop hch)
    case isFalse => exact (MadeOf.append (by decide) (madeOf_zeros _)).append (digits _)

end Decimal

theorem madeOf_floatText (x : Float) : MadeOf isAngleChar (floatText x) := by
  rw [floatText]
  split
  case h_1 b _ =>
    have sign : MadeOf isAngleChar (if b.negative then "-" else "") := by split <;> decide
    exact sign.append (Decimal.madeOf_positional _)
  case h_2 =>
    split
    case isTrue => decide
    case isFalse => split <;> decide

namespace Angle

theorem madeOf_symbolic (whole : Float) (n : Nat) : MadeOf isAngleChar (symbolic whole n) := by
  have sign : MadeOf isAngleChar (if whole < 0 then "-" else "") := by split <;> decide
  have head : MadeOf isAngleChar (if whole.abs == 1 then "pi" else floatText whole.abs ++ "*pi") := by
    split
    case isTrue => decide
    case isFalse => exact (madeOf_floatText _).append (by decide)
  rw [symbolic]
  split
  case isTrue => exact sign.append head
  case isFalse => exact ((sign.append head).append (by decide)).append (MadeOf.decimal n).angle_of_digits

theorem madeOf_text (a : Float) : MadeOf isAngleChar (text a) := by
  rw [text]
  split
  case isTrue => decide
  case isFalse =>
    unfold Option.getD
    split
    case h_1 s found =>
      obtain ⟨⟨n, d⟩, _, named⟩ := List.exists_of_findSome?_eq_some found
      obtain ⟨whole, _, eq⟩ := Option.map_eq_some_iff.mp named
      exact eq ▸ madeOf_symbolic whole n
    case h_2 => exact madeOf_floatText a

end Angle

end CircuitRouting
