import Outfitter.Path

/-! # Layout of a project

The fixed places below the root of a project.
-/

namespace Outfitter.Layout

def assetsDirName : String := ".claude"
def snapshotsDirName : String := ".claude-backups"
def stampName : String := ".claude/.pilot-version"
def ignoreName : String := ".gitignore"
def serversName : String := ".mcp.json"

/-- The line that keeps plans out of version control. -/
def ignoredPlans : String := ".pilot/"

def assetsDir (root : Path) : Path := root / assetsDirName
def settings (root : Path) : Path := root / ".claude/settings.json"
def stamp (root : Path) : Path := root / stampName
def config (root : Path) : Path := root / ".claude/pilot.yaml"
def snapshots (root : Path) : Path := root / snapshotsDirName
def guide (root : Path) : Path := snapshots root / "MANUAL_MERGE_GUIDE.md"
def servers (root : Path) : Path := root / serversName
def ignoreFile (root : Path) : Path := root / ignoreName

/-- The sibling in which a new version of `path` is prepared. -/
def staging (path : Path) : Path := path.withFileName (path.fileName?.getD "" ++ ".tmp")

end Outfitter.Layout
