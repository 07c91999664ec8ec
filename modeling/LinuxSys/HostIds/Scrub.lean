import Mathlib.Data.List.Dedup
import LinuxSys.HostIds.Rules
import LinuxSys.Lib.Machine

/-! # Scrubbing a text

The rules take their turns one after the other, each once: a rule replaces its matches, but for
those that the configuration allows. `check` then looks for the matches of all rules. What a turn
puts into the text, or what it brings together, may be a match of a rule whose turn is over.
-/

namespace LinuxSys.HostIds

open Lib

/-- `.host-scrub.toml`: the paths that are exempt from a category, and the patterns of the values
that may stand. -/
structure Config where
  allow : Category → Text → Bool := fun _ _ => false
  allowMatch : Category → List (Regex Char) := fun _ => []

def Config.valueAllowed (cfg : Config) (category : Category) (value : Text) : Bool :=
  (cfg.allowMatch category).any fun p => !(p.finditer value).isEmpty

/-- `m.expand`. -/
def expand (replacement : List Part) (m : Regex.Match Char) : Text :=
  replacement.flatMap fun
    | .text t => t
    | .group n => m.group n

section Turns

variable (cfg : Config) (rel : Text)

def turn (text : Text) (r : Rule) : Text :=
  if cfg.allow r.category rel then text
  else r.pattern.sub (fun m =>
    if cfg.valueAllowed r.category m.text then m.text else expand r.replacement m) text

def scrubText (rules : List Rule) (text : Text) : Text := rules.foldl (turn cfg rel) text

/-- The line on which a match ends; a match that ends at the very beginning counts to the character
before the last. -/
def lineOf (text : Text) (stop : ℕ) : ℕ :=
  (if stop = 0 then text.dropLast else text.take (stop - 1)).count '\n' + 1

/-- The matches of a rule that are reported. -/
def reported (r : Rule) (text : Text) : List (Regex.Match Char) :=
  if cfg.allow r.category rel then []
  else (r.pattern.finditer text).filter fun m =>
    !(decide (r.category = .homePath) && (m.text = "~".toList || m.text = "<repo>".toList)) &&
      !cfg.valueAllowed r.category m.text

def hits (rules : List Rule) (text : Text) : List (ℕ × Category) :=
  let found := rules.flatMap fun r =>
    (reported cfg rel r text).map fun m => (lineOf text m.stop, r.category)
  found.dedup.mergeSort fun one other =>
    decide (one.1 < other.1) || one.1 == other.1 && decide (one.2.name ≤ other.2.name)

/-- Nothing is left to find, and scrubbing again changes nothing. -/
def Clean (rules : List Rule) (text : Text) : Prop :=
  hits cfg rel rules (scrubText cfg rel rules text) = [] ∧
    scrubText cfg rel rules (scrubText cfg rel rules text) = scrubText cfg rel rules text

/-- The rule's next turn would look at a match and not let it stand. -/
def Finds (r : Rule) (text : Text) : Prop :=
  cfg.allow r.category rel = false ∧
    ∃ m ∈ r.pattern.finditer text, cfg.valueAllowed r.category m.text = false

end Turns

variable {cfg : Config} {rel : Text}

end LinuxSys.HostIds
