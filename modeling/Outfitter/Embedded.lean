import Outfitter.Update

/-! # The embedded bundle

The files that the program itself brings along.
-/

namespace Outfitter.Embedded

def version : String := "2.1.1"

/-- Files whose text only names them. -/
def placeholders : List String :=
  [ ".claude/agents/CONTEXT.md"
  , ".claude/commands/00_plan.md"
  , ".claude/commands/01_confirm.md"
  , ".claude/commands/02_execute.md"
  , ".claude/commands/03_close.md"
  , ".claude/commands/CONTEXT.md"
  , ".claude/guides/CONTEXT.md"
  , ".claude/local/.gitkeep"
  , ".claude/rules/core/workflow.md"
  , ".claude/scripts/hooks/lint.sh"
  , ".claude/skills/ralph-loop/SKILL.md"
  , ".claude/skills/tdd/SKILL.md" ]

def settings : Json :=
  .obj
    [ ("theme", .str "stub")
    , ("hooks", .obj
        [ ("Stop", .arr [.obj [("hooks", .arr [Settings.command ".claude/scripts/hooks/lint.sh"])]]) ]) ]

def guideTemplate : String :=
  "# Project Guide\n\n" ++
  "This file is yours. claude-pilot creates it once and never overwrites it.\n\n" ++
  "## Project\n" ++
  "- Name: <project name>\n" ++
  "- Stack: <languages, frameworks>\n\n" ++
  "## Commands\n" ++
  "- Build: `<build command>`\n" ++
  "- Test: `<test command>`\n" ++
  "- Lint: `<lint command>`\n\n" ++
  "## Conventions\n" ++
  "- Keep changes small and reviewable.\n" ++
  "- Every behavior change comes with a test.\n\n" ++
  "## Workflow\n" ++
  "Plans live in `.pilot/plan/`. Use `/00_plan` to start, `/01_confirm` to lock\n" ++
  "the plan, `/02_execute` to implement and `/03_close` to archive it.\n"

def contents : List (String × String) :=
  placeholders.map (fun p => (p, "asset: " ++ p ++ "\n")) ++
    [(".claude/settings.json", settings.compact), ("CLAUDE.md.template", guideTemplate)]

def names : List String := (contents.map (·.1)).mergeSort fun a b => !(b < a)

def bundle : Bundle := .held names (contents.map fun (p, text) => (p, text.toUTF8))

/-- The embedded bundle as a kit, with the curated manifest. -/
def kit : Update.Kit := ⟨bundle, .curated, version⟩

end Outfitter.Embedded
