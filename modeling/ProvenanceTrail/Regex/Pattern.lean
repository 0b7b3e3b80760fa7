import ProvenanceTrail.Regex.Parser
import ProvenanceTrail.Regex.Match
/-!
# Patterns

A pattern is a regular expression for whole texts. Its source is put between `^(?:` and `)$` before
it is read, so a source may also close that group and open another.
-/

namespace ProvenanceTrail

/-- A compiled pattern with the source it came from. -/
structure Pattern where
  source : String
  expression : Regex
deriving Repr

namespace Pattern

/-- The text that is read for a source. -/
def anchored (source : String) : String := "^(?:" ++ source ++ ")$"

/-- Compiles a source; `none` when the anchored text is no regular expression. -/
def ofSource? (source : String) : Option Pattern :=
  (Regex.parse? (anchored source)).map fun e => ⟨source, e⟩

/-- Whether a text matches. -/
def accepts (p : Pattern) (text : String) : Bool := p.expression.occursIn text

/-- A source that matches exactly the given text. -/
def escape (text : String) : String :=
  String.ofList (text.toList.flatMap fun c => if Regex.isMeta c then ['\\', c] else [c])

end Pattern

end ProvenanceTrail
