import StylePrep.Error
import StylePrep.Glob.Excludes
import StylePrep.Yaml.Decode

/-!
# Project manifests

The manifest of a project, `wt.yaml`, holds the settings that would otherwise be
given on every command line. All of them may be left out, and keys that mean
nothing here are ignored. A manifest that is read from a file takes its relative
paths from the directory of that file.
-/

namespace StylePrep

structure Manifest where
  /-- Files and directories that are built when a command names none. -/
  sources : List Text := []
  includePaths : List Path := []
  /-- Signatures of registered functions. -/
  functions : List Text := []
  imageDir : Option Path := none
  genDir : Option Path := none
  buildDir : Option Path := none
  spacing : Option Nat := none
  /-- Patterns of the files that are not built. -/
  excludes : List Text := []
  deriving DecidableEq, Repr

namespace Manifest

open Text

/-- The manifest a document describes. -/
def ofYaml? (document : Yaml) : Option Manifest := do
  let fields ← document.fields?
  let texts key := Yaml.field? fields key [] Yaml.texts?
  let path? key := Yaml.field? fields key none
    (Yaml.optional fun node => node.text?.map Path.mk)
  return {
    sources := ← texts "sources"
    includePaths := (← texts "include_paths").map Path.mk
    functions := ← texts "custom_functions"
    imageDir := ← path? "image_dir"
    genDir := ← path? "gen_dir"
    buildDir := ← path? "build_dir"
    spacing := ← Yaml.field? fields "spacing" none (Yaml.optional (Yaml.nat? bound32))
    excludes := ← texts "excludes" }

def parse (t : Text) : Except ConfigError Manifest :=
  match (Yaml.read t).bind ofYaml? with
  | some manifest => .ok manifest
  | none => .error .invalidManifest

/-- The manifest with its relative paths taken from `base`. -/
def relativeTo (m : Manifest) (base : Path) : Manifest :=
  { m with
    sources := m.sources.map fun source => (base.join ⟨source⟩).text
    includePaths := m.includePaths.map base.join
    imageDir := m.imageDir.map base.join
    genDir := m.genDir.map base.join
    buildDir := m.buildDir.map base.join }

def load (tree : Tree) (p : Path) : Except Cause Manifest :=
  match tree.readText p with
  | .error fault => .error (.io p .readManifest fault)
  | .ok t =>
    match parse t with
    | .error e => .error (.config e)
    | .ok manifest => .ok (manifest.relativeTo (p.parent?.getD ⟨['.']⟩))

def fileName : Path := ⟨"wt.yaml".toList⟩

/-- The manifest file of a project directory, if it has one. -/
def find? (tree : Tree) (dir : Path) : Option Path :=
  let p := dir.join fileName
  if tree.isFile p then some p else none

/-- Read the manifest of a project directory, if it has one. -/
def loadFrom? (tree : Tree) (dir : Path) : Except Cause (Option Manifest) :=
  match find? tree dir with
  | some p => (load tree p).map some
  | none => .ok none

def excludePatterns (m : Manifest) : Except ConfigError (List Glob) :=
  (Glob.parseExcludes m.excludes).mapError .excludePattern

end Manifest

end StylePrep
