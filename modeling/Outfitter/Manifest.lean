import Outfitter.Glob.Reader
import Outfitter.Path

/-! # Manifests

A manifest decides by patterns which files ship. Exclusion wins over inclusion, and what
no pattern includes is left out. Beside the patterns it names files that have a policy of
their own.
-/

namespace Outfitter

/-- What to do with a file that the target may already have. -/
inductive Policy where
  | mergeOnly
  | overwrite
  | skip
  deriving DecidableEq, Repr

namespace Policy

def text : Policy → String
  | mergeOnly => "merge-only"
  | overwrite => "overwrite"
  | skip => "skip"

def ofText? : String → Option Policy
  | "merge-only" => some mergeOnly
  | "overwrite" => some overwrite
  | "skip" => some skip
  | _ => none

end Policy

/-- A pattern, or a text that is no pattern and stands for itself. -/
inductive Matcher where
  | glob (items : List Glob.Item)
  | literal (text : String)

namespace Matcher

def ofText (s : String) : Matcher :=
  match Glob.read? s with
  | some items => glob items
  | none => literal s

def accepts : Matcher → String → Bool
  | glob items, path => Glob.isMatch items path
  | literal s, path => s == path

end Matcher

structure Manifest where
  included : List Matcher
  excluded : List Matcher
  policies : List (String × Policy)

namespace Manifest

def ofTexts (included excluded : List String) (policies : List (String × Policy)) : Manifest :=
  ⟨included.map Matcher.ofText, excluded.map Matcher.ofText, policies⟩

/-- Slashes for backslashes, and one leading `./` dropped. -/
def normalize (path : String) : String :=
  match (Path.slashed path).toList with
  | '.' :: '/' :: rest => String.ofList rest
  | cs => String.ofList cs

def includes (m : Manifest) (path : String) : Bool :=
  let p := normalize path
  !m.excluded.any (·.accepts p) && m.included.any (·.accepts p)

/-- The policy of a file; of two entries for one file the later counts. -/
def policy? (m : Manifest) (path : String) : Option Policy :=
  m.policies.reverse.lookup (normalize path)

def hasPolicy (m : Manifest) (path : String) : Bool := (m.policy? path).isSome

def curatedIncluded : List String :=
  [ ".claude/commands/00_plan.md"
  , ".claude/commands/01_confirm.md"
  , ".claude/commands/02_execute.md"
  , ".claude/commands/03_close.md"
  , ".claude/commands/90_review.md"
  , ".claude/commands/91_document.md"
  , ".claude/commands/92_init.md"
  , ".claude/commands/CONTEXT.md"
  , ".claude/agents/*.md"
  , ".claude/skills/tdd/SKILL.md"
  , ".claude/skills/tdd/REFERENCE.md"
  , ".claude/skills/ralph-loop/SKILL.md"
  , ".claude/skills/ralph-loop/REFERENCE.md"
  , ".claude/skills/vibe-coding/SKILL.md"
  , ".claude/skills/vibe-coding/REFERENCE.md"
  , ".claude/skills/git-master/SKILL.md"
  , ".claude/skills/git-master/REFERENCE.md"
  , ".claude/skills/documentation-best-practices/SKILL.md"
  , ".claude/skills/documentation-best-practices/REFERENCE.md"
  , ".claude/skills/CONTEXT.md"
  , ".claude/guides/*.md"
  , ".claude/templates/*.template"
  , ".claude/templates/gap-checklist.md"
  , ".claude/scripts/hooks/*.sh"
  , ".claude/scripts/statusline.sh"
  , ".claude/scripts/worktree-utils.sh"
  , ".claude/scripts/codex-sync.sh"
  , ".claude/rules/**"
  , ".claude/.pilot-version"
  , ".claude/settings.json"
  , ".claude/local/.gitkeep"
  , "CLAUDE.md.template" ]

def curatedExcluded : List String :=
  [ ".claude/skills/external/**"
  , ".claude/.external-skills-version"
  , ".claude/commands/999_*"
  , ".pilot/**"
  , "**/CLAUDE.md"
  , ".claude/local/*/**"
  , ".claude/local/[!.]*" ]

def curatedPolicies : List (String × Policy) := [(".claude/settings.json", .mergeOnly)]

/-- The manifest of what ships. -/
def curated : Manifest := ofTexts curatedIncluded curatedExcluded curatedPolicies

end Manifest

end Outfitter
