import Scoped.Grammar.Pattern

/-!
# Layout

Layout is what may stand between two tokens : blanks, and comments that run from two
slashes to the end of their line. `Layout.split` cuts the longest stretch of layout off
the front of a text.
-/

namespace Scoped.Grammar.Layout

/-- Reads layout. `read` holds what was read before, the last character first; inside a
comment every character belongs to it, and the end of the line ends it. -/
def scan (read : List Char) : (inComment : Bool) → List Char → List Char × List Char
  | _, [] => (read.reverse, [])
  | true, c :: cs => scan (c :: read) (c != '\n') cs
  | false, '/' :: '/' :: cs => scan ('/' :: '/' :: read) true cs
  | false, c :: cs => if isBlank c then scan (c :: read) false cs else (read.reverse, c :: cs)

/-- The layout at the front of a text, and what follows it. -/
def split (cs : List Char) : List Char × List Char := scan [] false cs

/-- Reading layout loses nothing. -/
theorem scan_append (read : List Char) (inComment : Bool) (cs : List Char) :
    (scan read inComment cs).1 ++ (scan read inComment cs).2 = read.reverse ++ cs := by
  fun_induction scan read inComment cs <;> simp_all

/-- Nothing is lost : the layout and the rest make up the text. -/
@[simp]
theorem split_append (cs : List Char) : (split cs).1 ++ (split cs).2 = cs := by
  simpa [split] using scan_append [] false cs

theorem length_rest_le (cs : List Char) : (split cs).2.length ≤ cs.length := by
  have h := congrArg List.length (split_append cs)
  rw [List.length_append] at h
  omega

end Scoped.Grammar.Layout
