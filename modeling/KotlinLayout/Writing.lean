import KotlinLayout.Fault

/-!
Written forms of things that may have none. Writing goes on over a part without a written form of
its own, and remembers that it met one; a part that cannot be written at all ends it in a fault.
-/

namespace KotlinLayout

/-- Writing keeps whether a part without a written form of its own was met. -/
abbrev Writing := StateT Bool (Except Fault)

namespace Writing

def anonymous (substitute : String) : Writing String := do
  set true
  return substitute

def text (writing : Writing String) : Except Fault String := do
  let (text, _) ← writing.run false
  return text

/-- What was written, for a message, which does without anything that has no written form. -/
def forMessage (writing : Writing String) : Except Fault (Option String) := do
  let (text, metAnonymous) ← writing.run false
  return if metAnonymous then none else some text

end Writing

end KotlinLayout
