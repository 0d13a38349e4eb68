import StylePrep.Location
import StylePrep.Signature

/-!
# Directives

What a style sheet is made of as far as preprocessing goes: imports, variable
assignments, calls of sprite functions, calls of registered functions, and runs
of plain text in between. Every directive knows the text it covers, where that
text stands and which blocks are open there.
-/

namespace StylePrep

/-- The functions that work on images and sprite sheets. -/
inductive SpriteFunction where
  | spriteMap
  | sprite
  | spriteFile
  | spriteUrl
  | spritePosition
  | spriteHeight
  | spriteWidth
  | spriteDimensions
  | imageUrl
  | imageHeight
  | imageWidth
  | inlineImage
  deriving DecidableEq, Repr

namespace SpriteFunction

/-- The name a style sheet calls the function by. -/
def name : SpriteFunction → Text
  | spriteMap => "sprite-map".toList
  | sprite => "sprite".toList
  | spriteFile => "sprite-file".toList
  | spriteUrl => "sprite-url".toList
  | spritePosition => "sprite-position".toList
  | spriteHeight => "sprite-height".toList
  | spriteWidth => "sprite-width".toList
  | spriteDimensions => "sprite-dimensions".toList
  | imageUrl => "image-url".toList
  | imageHeight => "image-height".toList
  | imageWidth => "image-width".toList
  | inlineImage => "inline-image".toList

def all : List SpriteFunction :=
  [spriteMap, sprite, spriteFile, spriteUrl, spritePosition, spriteHeight, spriteWidth,
    spriteDimensions, imageUrl, imageHeight, imageWidth, inlineImage]

theorem mem_all (f : SpriteFunction) : f ∈ all := by cases f <;> decide

def ofName? (name : Text) : Option SpriteFunction := all.find? (·.name = name)

end SpriteFunction

/-- The flags an assignment can end with: `!default` keeps a value that is
already visible, `!global` assigns at the root. -/
structure AssignFlags where
  isDefault : Bool := false
  isGlobal : Bool := false
  deriving DecidableEq, Repr

structure Binding where
  name : Text
  flags : AssignFlags
  deriving DecidableEq, Repr

inductive DirectiveKind where
  /-- `@import "a", "b";` with one target for each quoted name. -/
  | imports (targets : List Text)
  /-- A call of a sprite function; only a sprite map has a binding. -/
  | sprite (function : SpriteFunction) (args : List Text) (binding : Option Binding)
  /-- A call of a registered function. -/
  | custom (name : Text) (args : List Text)
  /-- `$name: value;` where `lead` is all that stands before the value and
  `tail` all that follows it, flags and semicolon included. -/
  | assign (name lead value tail : Text) (flags : AssignFlags)
  /-- Text without any directive. -/
  | plain
  deriving DecidableEq, Repr

/-- A directive, the text it covers and where that text stands. `scope` holds
the ordinals of the blocks open at its start, outermost first. -/
structure Directive where
  kind : DirectiveKind
  span : Span
  raw : Text
  scope : List Nat
  deriving DecidableEq, Repr

namespace Directive

def line (d : Directive) : Nat := d.span.start.line

end Directive

end StylePrep
