/-!
# Spans

A span is a stretch of a script, from the offset of its first byte to the offset after its
last one, in the UTF-8 encoding of the script.
-/

namespace Scoped

/-- The number of bytes of a text in UTF-8. -/
def utf8Size (cs : List Char) : Nat := cs.foldl (fun n c => n + c.utf8Size) 0

@[simp]
theorem utf8Size_nil : utf8Size [] = 0 := rfl

theorem foldl_utf8Size (cs : List Char) (n : Nat) :
    cs.foldl (fun n c => n + c.utf8Size) n = n + utf8Size cs := by
  induction cs generalizing n with
  | nil => rfl
  | cons c cs ih => rw [utf8Size, List.foldl_cons, List.foldl_cons, ih, ih]; omega

@[simp]
theorem utf8Size_cons (c : Char) (cs : List Char) :
    utf8Size (c :: cs) = c.utf8Size + utf8Size cs := by
  rw [utf8Size, List.foldl_cons, foldl_utf8Size, Nat.zero_add]

@[simp]
theorem utf8Size_append (cs ds : List Char) : utf8Size (cs ++ ds) = utf8Size cs + utf8Size ds := by
  induction cs with
  | nil => simp
  | cons c cs ih => simp [ih, Nat.add_assoc]

/-- A stretch of a script, in bytes. -/
structure Span where
  /-- The offset of the first byte. -/
  start : Nat
  /-- The offset after the last byte. -/
  stop : Nat
deriving DecidableEq, Repr

/-- Spans are written as ranges. -/
def Span.render (s : Span) : String := toString s.start ++ ".." ++ toString s.stop

end Scoped
