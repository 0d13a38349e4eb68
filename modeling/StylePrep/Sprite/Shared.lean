import Mathlib.Logic.Function.Basic
import StylePrep.Sprite.Cache

/-!
# The sheet cache shared by compilations

Compilations that run side by side share one cache, so the steps of several calls of
`getOrPack` come in any order. Each key has a slot, which a table leads to. The table is
locked only for as long as the slot of a key is looked up or made. A call then waits for the
lock of the slot and holds it until it has its result, so that calls for one key wait for each
other, and calls for different keys do not.

Calls are numbered, `keys` being the keys they ask for. What a pack comes to is left open: it
may make any sheet or fail in any way.
-/

namespace StylePrep

namespace SharedCache

/-- What a pack or a call comes to. -/
abbrev Result := Except SpriteError Sheet

/-- A slot: the call that holds its lock, if one does, and its sheet, if there is one. -/
structure Slot where
  owner : Option Nat
  sheet? : Option Sheet
  deriving DecidableEq, Repr

/-- How far a call has got: it has not looked its slot up, it waits for the lock of the slot, it
holds the lock, it packs, it has packed, it has a result and still holds the lock, or it has
returned. -/
inductive Phase where
  | ready
  | waiting (slot : Nat)
  | locked (slot : Nat)
  | packing (slot : Nat)
  | packed (slot : Nat) (result : Result)
  | leaving (slot : Nat) (result : Result)
  | returned (result : Result)
  deriving Repr

/-- The steps of calls: to look the slot up, to take its lock, to find a sheet in it, to start
and to finish packing, to store what was packed, and to release the lock and return. -/
inductive Event where
  | find (call : Nat)
  | acquire (call : Nat)
  | hit (call : Nat)
  | start (call : Nat)
  | finish (call : Nat) (result : Result)
  | store (call : Nat)
  | release (call : Nat)
  deriving Repr

def Event.call : Event → Nat
  | find i | acquire i | hit i | start i | finish i _ | store i | release i => i

/-- The sheet that the step has packed, with its key. -/
def Event.packed? (keys : Nat → Text) : Event → Option (Text × Sheet)
  | finish i (.ok sheet) => some (keys i, sheet)
  | _ => none

end SharedCache

/-- The state of a shared cache: the slots that the table leads to from the keys, what is in
them, and how far the calls have got. -/
structure SharedCache where
  table : List (Text × Nat)
  slots : Nat → SharedCache.Slot
  phases : Nat → SharedCache.Phase

namespace SharedCache

/-- Nothing packed, and no call begun. -/
def initial : SharedCache := ⟨[], fun _ => ⟨none, none⟩, fun _ => .ready⟩

def stored? (s : SharedCache) (key : Text) : Option Sheet :=
  (s.table.lookup key).bind fun slot => (s.slots slot).sheet?

def size (s : SharedCache) : Nat := s.table.countP fun (_, slot) => (s.slots slot).sheet?.isSome

def moveTo (s : SharedCache) (i : Nat) (phase : Phase) : SharedCache :=
  { s with phases := Function.update s.phases i phase }

def setSlot (s : SharedCache) (slot : Nat) (value : Slot) : SharedCache :=
  { s with slots := Function.update s.slots slot value }

def addSlot (s : SharedCache) (key : Text) : SharedCache :=
  { s with table := s.table ++ [(key, s.table.length)] }

/-- What a slot holds behind a pack: a failure leaves it as it is. -/
def Slot.put (slot : Slot) : Result → Slot
  | .ok sheet => { slot with sheet? := some sheet }
  | .error _ => slot

inductive Step (keys : Nat → Text) (s : SharedCache) : Event → SharedCache → Prop
  | find {i slot : Nat} : s.phases i = .ready → s.table.lookup (keys i) = some slot →
      Step keys s (.find i) (s.moveTo i (.waiting slot))
  | make {i : Nat} : s.phases i = .ready → s.table.lookup (keys i) = none →
      Step keys s (.find i) ((s.addSlot (keys i)).moveTo i (.waiting s.table.length))
  | acquire {i slot : Nat} : s.phases i = .waiting slot → (s.slots slot).owner = none →
      Step keys s (.acquire i)
        ((s.setSlot slot { s.slots slot with owner := some i }).moveTo i (.locked slot))
  | hit {i slot : Nat} {sheet : Sheet} :
      s.phases i = .locked slot → (s.slots slot).sheet? = some sheet →
      Step keys s (.hit i) (s.moveTo i (.leaving slot (.ok sheet)))
  | start {i slot : Nat} : s.phases i = .locked slot → (s.slots slot).sheet? = none →
      Step keys s (.start i) (s.moveTo i (.packing slot))
  | finish {i slot : Nat} (result : Result) : s.phases i = .packing slot →
      Step keys s (.finish i result) (s.moveTo i (.packed slot result))
  | store {i slot : Nat} {result : Result} : s.phases i = .packed slot result →
      Step keys s (.store i)
        ((s.setSlot slot ((s.slots slot).put result)).moveTo i (.leaving slot result))
  | release {i slot : Nat} {result : Result} : s.phases i = .leaving slot result →
      Step keys s (.release i)
        ((s.setSlot slot { s.slots slot with owner := none }).moveTo i (.returned result))

/-- The events of a run, in order, and the state that they lead to. -/
inductive Run (keys : Nat → Text) : List Event → SharedCache → Prop
  | initial : Run keys [] initial
  | step {events : List Event} {e : Event} {s s' : SharedCache} :
      Run keys events s → Step keys s e s' → Run keys (events ++ [e]) s'

/-- The sheets that were packed in a run, as a cache. -/
def packed (keys : Nat → Text) (events : List Event) : SheetCache :=
  ⟨events.filterMap (·.packed? keys)⟩

/-- No call is in progress. -/
def AtRest (s : SharedCache) : Prop :=
  ∀ i, s.phases i = .ready ∨ ∃ result, s.phases i = .returned result

end SharedCache

end StylePrep
