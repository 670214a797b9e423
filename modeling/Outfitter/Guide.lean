import Outfitter.Inventory
import Outfitter.Layout

/-! # The guide for a merge by hand -/

namespace Outfitter.Guide

/-- A bulleted line for a path. -/
def bullet (path : String) : String := "- `" ++ path ++ "`\n"

def fenced (commands : List String) : String :=
  "```bash\n" ++ String.join (commands.map (· ++ "\n")) ++ "```\n"

/-- The text of the guide for a version, the name of a snapshot and the time of writing. -/
def render (version snapshot generated : String) : String :=
  let saved := Layout.snapshotsDirName ++ "/" ++ snapshot
  let compare (file : String) : String := "diff " ++ saved ++ "/" ++ file ++ " .claude/" ++ file
  "# Manual Merge Guide\n" ++
  "Generated: " ++ generated ++ "\n" ++
  "Version: " ++ version ++ "\n\n" ++
  "## Overview\n" ++
  "This guide walks through merging the claude-pilot v" ++ version ++
    " assets into this project by hand.\n\n" ++
  "## Step 1: Review Backup\n" ++
  "Your current `.claude/` directory was copied to `" ++ saved ++ "/`.\n\n" ++
  "## Step 2: Apply and Compare\n" ++
  "Apply the new assets, then compare against the snapshot:\n\n" ++
  fenced ["claude-pilot update --strategy auto --skip-upgrade", "diff -ru " ++ saved ++ " .claude"] ++
  "\n### Commands (.claude/commands/)\n" ++
  fenced [compare "commands/00_plan.md"] ++
  "\n### Templates (.claude/templates/)\n" ++
  fenced [compare "templates/CONTEXT.md.template"] ++
  "\n### Hooks (.claude/scripts/hooks/)\n" ++
  fenced [compare "scripts/hooks/typecheck.sh"] ++
  "\nTo keep your own version of a file, copy it back from the snapshot:\n" ++
  fenced ["cp " ++ saved ++ "/commands/00_plan.md .claude/commands/00_plan.md"] ++
  "\n## Step 3: Update Version\n" ++
  "If you merged by hand instead of running the automatic update:\n" ++
  fenced ["echo \"" ++ version ++ "\" > " ++ Layout.stampName] ++
  "\n## Rollback\n" ++
  fenced ["rm -rf .claude", "cp -r " ++ saved ++ " .claude"] ++
  "\n## Managed Files\n" ++
  "The following files are managed by claude-pilot:\n" ++
  String.join (Inventory.managed.map fun f => bullet f.2) ++
  "\n## Preserved Files\n" ++
  "These files are never overwritten:\n" ++
  String.join (Inventory.userFiles.map bullet)

end Outfitter.Guide
