import KotlinLayout.Fault

/-!
Texts written several times in a row, as far as there is room for them.
-/

namespace KotlinLayout.Text

/-- Counts and lengths are whole numbers of 64 bits with a sign. -/
def countLimit : Int := 0x8000000000000000

/-- The text as often as the count says, and not at all if the count is negative. The room is the
most characters that can be kept. -/
def repeated (room : Nat) (text : String) (count : Int) : Except Fault String :=
  if count < -countLimit ∨ countLimit ≤ count then .error .countTooLarge
  else if count ≤ 0 ∨ text = "" then .ok ""
  else if countLimit ≤ text.length * count then .error .textTooLong
  else if room < text.length * count then .error .outOfMemory
  else .ok (String.join (List.replicate count.toNat text))

end KotlinLayout.Text
