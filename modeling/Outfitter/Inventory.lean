import Outfitter.Path

/-! # Inventory

The files that are managed, those that belong to the user, those that are retired, and
those that a bundle holds under another name. Ownership goes by whole path segments.
-/

namespace Outfitter.Inventory

/-- Managed files, each as it stands in a bundle and in a project. -/
def managed : List (String × String) :=
  [ (".claude/commands/00_plan.md", ".claude/commands/00_plan.md")
  , (".claude/commands/01_confirm.md", ".claude/commands/01_confirm.md")
  , (".claude/commands/02_execute.md", ".claude/commands/02_execute.md")
  , (".claude/commands/03_close.md", ".claude/commands/03_close.md")
  , (".claude/commands/90_review.md", ".claude/commands/90_review.md")
  , (".claude/commands/91_document.md", ".claude/commands/91_document.md")
  , (".claude/commands/92_init.md", ".claude/commands/92_init.md")
  , (".claude/templates/CONTEXT.md.template", ".claude/templates/CONTEXT.md.template")
  , (".claude/templates/CONTEXT-tier2.md.template", ".claude/templates/CONTEXT-tier2.md.template")
  , (".claude/templates/CONTEXT-tier3.md.template", ".claude/templates/CONTEXT-tier3.md.template")
  , (".claude/templates/SKILL.md.template", ".claude/templates/SKILL.md.template")
  , (".claude/scripts/hooks/typecheck.sh", ".claude/scripts/hooks/typecheck.sh")
  , (".claude/scripts/hooks/lint.sh", ".claude/scripts/hooks/lint.sh")
  , (".claude/scripts/hooks/check-todos.sh", ".claude/scripts/hooks/check-todos.sh")
  , (".claude/scripts/hooks/branch-guard.sh", ".claude/scripts/hooks/branch-guard.sh")
  , (".claude/.pilot-version", ".claude/.pilot-version") ]

def userFiles : List String :=
  ["CLAUDE.md", "AGENTS.md", ".pilot", ".claude/settings.json", ".claude/local"]

/-- Files of earlier releases that an update removes. -/
def retired : List String := [".claude/templates/PRP.md.template"]

def renames : List (String × String) := [("CLAUDE.md.template", "CLAUDE.md")]

/-- Where a bundled file goes in a project. -/
def destination (bundled : String) : String := (renames.lookup bundled).getD bundled

/-- `dest` is `owned`, lies below it, or ends in it after a slash. -/
def owns (owned dest : String) : Bool :=
  dest == owned || (owned.toList ++ ['/']).isPrefixOf dest.toList ||
    ('/' :: owned.toList).isSuffixOf dest.toList

def isUserOwned (dest : String) : Bool := userFiles.any (owns · dest)

def isShellScript (path : String) : Bool := ['.', 's', 'h'].isSuffixOf path.toList

/-- The retired files of a project. -/
def retiredIn (root : Path) : List (String × Path) := retired.map fun p => (p, root / p)

end Outfitter.Inventory
