import Scoped.Interpreter

/-!
# Sinks

The lines that a program prints go to a sink of the host. A host can collect them in an array,
or in a buffer that several handles share : what is written through one handle is read through
all of them.
-/

namespace Scoped

/-- What a line makes of the state of a sink that it is written to. -/
structure Sink (σ : Type) where
  write : σ → String → σ

namespace Sink

/-- Writes lines in order. -/
def writeAll {σ : Type} (sink : Sink σ) (st : σ) (lines : Array String) : σ :=
  lines.foldl sink.write st

/-- Collects lines in an array. -/
def array : Sink (Array String) := ⟨Array.push⟩

end Sink

/-- Writes the lines of a run that started without any to a sink. -/
def Run.deliver {σ : Type} (run : Run) (sink : Sink σ) (st : σ) : σ := sink.writeAll st run.printed

/-- Buffers of lines, and the handles that share them. -/
structure Buffers where
  /-- The lines of each buffer. -/
  contents : Array (Array String)
  /-- The buffer of each handle. -/
  handles : Array Nat
  handles_lt : ∀ {h k : Nat}, handles[h]? = some k → k < contents.size

namespace Buffers

/-- No buffer, and no handle. -/
def empty : Buffers := ⟨#[], #[], by simp⟩

/-- The number of the next handle. -/
def nextHandle (b : Buffers) : Nat := b.handles.size

/-- The buffer that a handle refers to. -/
def buffer? (b : Buffers) (h : Nat) : Option Nat := b.handles[h]?

/-- Adds a buffer without lines, with a handle to it. -/
def create (b : Buffers) : Buffers where
  contents := b.contents.push #[]
  handles := b.handles.push b.contents.size
  handles_lt {h k} hk := by
    rw [Array.getElem?_push] at hk
    rw [Array.size_push]
    split at hk
    · cases hk
      exact Nat.lt_succ_self _
    · exact Nat.lt_succ_of_lt (b.handles_lt hk)

/-- Adds a handle to the buffer of a handle. -/
def clone (b : Buffers) (h : Nat) : Buffers :=
  match hb : b.handles[h]? with
  | none => b
  | some k =>
    { contents := b.contents
      handles := b.handles.push k
      handles_lt := fun {h' k'} hk => by
        rw [Array.getElem?_push] at hk
        split at hk
        · cases hk
          exact b.handles_lt hb
        · exact b.handles_lt hk }

/-- Changes the lines of the buffer that a handle refers to. -/
def modify (b : Buffers) (h : Nat) (f : Array String → Array String) : Buffers where
  contents := (b.buffer? h).elim b.contents (b.contents.modify · f)
  handles := b.handles
  handles_lt hk := by
    cases b.buffer? h with
    | none => exact b.handles_lt hk
    | some _ => simpa using b.handles_lt hk

/-- Writes a line through a handle. -/
def write (b : Buffers) (h : Nat) (line : String) : Buffers := b.modify h (·.push line)

/-- Empties the buffer that a handle refers to. -/
def clear (b : Buffers) (h : Nat) : Buffers := b.modify h fun _ => #[]

/-- The lines that are read through a handle. -/
def lines (b : Buffers) (h : Nat) : Array String :=
  ((b.buffer? h).bind (b.contents[·]?)).getD #[]

/-- The lines that are read through a handle as one text. -/
def output (b : Buffers) (h : Nat) : String := String.join ((b.lines h).toList.map (· ++ "\n"))

/-- The buffer of a handle as a sink. -/
def sink (h : Nat) : Sink Buffers := ⟨(·.write h)⟩

end Buffers

end Scoped
