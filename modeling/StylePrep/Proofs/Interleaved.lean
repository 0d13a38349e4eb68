import Mathlib.Data.Finset.Card
import Mathlib.Data.List.Induction
import Mathlib.Data.List.Perm.Basic
import StylePrep.Proofs.History
import StylePrep.Sprite.Shared

/-!
# Calls of the sheet cache, interleaved

Calls of a shared cache take their steps in any order, and still each key is packed once.

Three invariants carry this, each with the lemma of one step. Keys and slots belong together one
to one, and a call knows the slot of its key (`Layout`); a call that holds the lock of a slot is
the one that owns it (`Exclusive`), so that calls for one key exclude each other. And the slots
have the sheets that were packed so far, up to one that is about to be stored (`Accounts`): while
a slot is locked and empty, its key has not been packed.

What a run comes to is what the calls come to one after the other. A call that packs and a call
that finds a sheet get what `getOrPack` gives for the sheets packed before
(`Run.getOrPack_of_finish`, `Run.get?_of_hit`).
-/

namespace StylePrep

namespace SharedCache

variable {keys : Nat → Text} {events : List Event} {s s' : SharedCache} {e : Event} {key : Text}
variable {i j slot : Nat} {sheet : Sheet} {result : Result}

/-! ### What a step changes -/

@[simp] theorem moveTo_table (s : SharedCache) (i : Nat) (phase : Phase) :
    (s.moveTo i phase).table = s.table := rfl

@[simp] theorem moveTo_slots (s : SharedCache) (i : Nat) (phase : Phase) :
    (s.moveTo i phase).slots = s.slots := rfl

@[simp] theorem moveTo_phases_self (s : SharedCache) (i : Nat) (phase : Phase) :
    (s.moveTo i phase).phases i = phase := Function.update_self ..

@[simp] theorem stored?_moveTo (s : SharedCache) (i : Nat) (phase : Phase) :
    (s.moveTo i phase).stored? = s.stored? := rfl

@[simp] theorem setSlot_table (s : SharedCache) (slot : Nat) (value : Slot) :
    (s.setSlot slot value).table = s.table := rfl

@[simp] theorem setSlot_phases (s : SharedCache) (slot : Nat) (value : Slot) :
    (s.setSlot slot value).phases = s.phases := rfl

theorem setSlot_slots (s : SharedCache) (slot other : Nat) (value : Slot) :
    (s.setSlot slot value).slots other = if other = slot then value else s.slots other :=
  Function.update_apply s.slots slot value other

@[simp] theorem addSlot_slots (s : SharedCache) (key : Text) : (s.addSlot key).slots = s.slots := rfl

@[simp] theorem addSlot_phases (s : SharedCache) (key : Text) : (s.addSlot key).phases = s.phases := rfl

theorem lookup_addSlot (s : SharedCache) (key key' : Text) :
    (s.addSlot key).table.lookup key' =
      (s.table.lookup key').or (if key' = key then some s.table.length else none) := by
  rw [addSlot, List.lookup_append]
  by_cases h : key' = key
  · simp [h]
  · simp [List.lookup_cons, h, beq_eq_false_iff_ne.2 h]

/-- A call keeps its phase while others take their steps. -/
theorem Step.phases_of_ne (h : Step keys s e s') (hj : j ≠ e.call) : s'.phases j = s.phases j := by
  cases h <;> exact Function.update_of_ne hj _ _

/-- The slots of keys stay. -/
theorem Step.lookup_mono (h : Step keys s e s') (hlookup : s.table.lookup key = some slot) :
    s'.table.lookup key = some slot := by
  cases h
  case make => rw [moveTo_table, lookup_addSlot, hlookup, Option.some_or]
  all_goals exact hlookup

/-! ### Slots -/

def Phase.slot? : Phase → Option Nat
  | waiting slot | locked slot | packing slot | packed slot _ | leaving slot _ => some slot
  | ready | returned _ => none

/-- The slot whose lock a call holds. -/
def Phase.lock? : Phase → Option Nat
  | locked slot | packing slot | packed slot _ | leaving slot _ => some slot
  | ready | waiting _ | returned _ => none

theorem Phase.slot?_of_lock? {phase : Phase} (h : phase.lock? = some slot) :
    phase.slot? = some slot := by
  cases phase <;> first | exact h | cases h

/-- A call knows its slot from before, or it has looked it up. -/
theorem Step.slot?_call (h : Step keys s e s') (hslot : (s'.phases e.call).slot? = some slot) :
    (s.phases e.call).slot? = some slot ∨ s'.table.lookup (keys e.call) = some slot := by
  cases h <;> simp only [Event.call, moveTo_phases_self, Phase.slot?, Option.some.injEq] at hslot ⊢
  case find hphase hlookup => exact .inr (hslot ▸ hlookup)
  case make hphase hnone =>
    rw [moveTo_table, lookup_addSlot, hnone]
    simp [hslot]
  case acquire hphase _ => simp [hphase, hslot]
  case hit hphase _ => simp [hphase, hslot]
  case start hphase _ => simp [hphase, hslot]
  case finish hphase => simp [hphase, hslot]
  case store hphase => simp [hphase, hslot]
  case release => cases hslot

/-- How keys and slots belong together. Slots are numbered in the order in which they were made,
so that different keys have different ones. -/
structure Layout (keys : Nat → Text) (s : SharedCache) : Prop where
  numbered : s.table.map Prod.snd = List.range s.table.length
  distinct : (s.table.map Prod.fst).Nodup
  unused : ∀ slot, s.table.length ≤ slot → (s.slots slot).sheet? = none
  knows : ∀ i slot, (s.phases i).slot? = some slot → s.table.lookup (keys i) = some slot

theorem mem_of_lookup {table : List (Text × Nat)} (h : table.lookup key = some slot) :
    (key, slot) ∈ table := by
  obtain ⟨front, back, rfl, -⟩ := List.lookup_eq_some_iff.1 h
  simp

theorem Layout.key_unique (h : Layout keys s) {key' : Text} (hkey : s.table.lookup key = some slot)
    (hkey' : s.table.lookup key' = some slot) : key = key' := by
  have hnodup : (s.table.map Prod.snd).Nodup := h.numbered ▸ List.nodup_range
  exact congrArg Prod.fst (List.inj_on_of_nodup_map hnodup (mem_of_lookup hkey)
    (mem_of_lookup hkey') rfl)

theorem Layout.lt_length (h : Layout keys s) (hkey : s.table.lookup key = some slot) :
    slot < s.table.length := by
  have hmem : slot ∈ s.table.map Prod.snd := List.mem_map.2 ⟨_, mem_of_lookup hkey, rfl⟩
  rw [h.numbered] at hmem
  exact List.mem_range.1 hmem

theorem Layout.initial (keys : Nat → Text) : Layout keys .initial where
  numbered := rfl
  distinct := .nil
  unused _ _ := rfl
  knows _ _ h := by cases h

theorem Layout.step (h : Layout keys s) (hstep : Step keys s e s') : Layout keys s' where
  numbered := by
    cases hstep
    case make => simp [addSlot, h.numbered, List.range_succ]
    all_goals exact h.numbered
  distinct := by
    cases hstep
    case make i hphase hnone =>
      have hnew : keys i ∉ s.table.map Prod.fst := by
        intro hmem
        obtain ⟨⟨key, slot⟩, hmem, rfl⟩ := List.mem_map.1 hmem
        simpa using List.lookup_eq_none_iff.1 hnone _ hmem
      rw [moveTo_table, addSlot, List.map_append]
      refine List.nodup_append.2 ⟨h.distinct, by simp, fun a ha b hb hab => hnew ?_⟩
      obtain rfl : b = keys i := List.mem_singleton.1 hb
      exact hab ▸ ha
    all_goals exact h.distinct
  unused := by
    have hset {i slot : Nat} {value : Slot} (hslot : (s.phases i).slot? = some slot) (other : Nat)
        (hother : s.table.length ≤ other) : ((s.setSlot slot value).slots other).sheet? = none := by
      have hlt := h.lt_length (h.knows i slot hslot)
      rw [setSlot_slots, if_neg (by omega)]
      exact h.unused other hother
    intro other hother
    cases hstep
    case make =>
      refine h.unused other (Nat.le_trans (Nat.le_succ _) ?_)
      simpa [addSlot] using hother
    case acquire i slot hphase _ => exact hset (i := i) (by rw [hphase]; rfl) other hother
    case store i slot result hphase => exact hset (i := i) (by rw [hphase]; rfl) other hother
    case release i slot result hphase => exact hset (i := i) (by rw [hphase]; rfl) other hother
    all_goals exact h.unused other hother
  knows := by
    intro j slot hslot
    by_cases hj : j = e.call
    · subst hj
      rcases hstep.slot?_call hslot with hbefore | hlookup
      · exact hstep.lookup_mono (h.knows e.call slot hbefore)
      · exact hlookup
    · rw [hstep.phases_of_ne hj] at hslot
      exact hstep.lookup_mono (h.knows j slot hslot)

/-! ### Locks -/

@[simp] theorem Slot.put_owner (slot : Slot) (result : Result) : (slot.put result).owner = slot.owner := by
  cases result <;> rfl

/-- A slot is owned by the call that holds its lock. -/
def Exclusive (s : SharedCache) : Prop :=
  ∀ i slot, (s.phases i).lock? = some slot → (s.slots slot).owner = some i

theorem Exclusive.initial : Exclusive .initial := fun _ _ h => by cases h

theorem Exclusive.step (h : Exclusive s) (hstep : Step keys s e s') : Exclusive s' := by
  intro j other hlock
  by_cases hj : j = e.call
  · -- the lock that the call itself holds is the one that it had, or the one that it takes
    subst hj
    cases hstep <;>
      simp only [Event.call, moveTo_phases_self, Phase.lock?, Option.some.injEq] at hlock ⊢
    case find => cases hlock
    case make => cases hlock
    case acquire => simp [setSlot_slots, hlock]
    case hit i slot sheet hphase _ => exact h i other (by rw [hphase, ← hlock]; rfl)
    case start i slot hphase _ => exact h i other (by rw [hphase, ← hlock]; rfl)
    case finish i slot result hphase => exact h i other (by rw [hphase, ← hlock]; rfl)
    case store i slot result hphase =>
      rw [moveTo_slots, setSlot_slots, if_pos hlock.symm, Slot.put_owner]
      exact h i slot (by rw [hphase]; rfl)
    case release => cases hlock
  · rw [hstep.phases_of_ne hj] at hlock
    have howner := h j other hlock
    cases hstep
    case acquire i slot _ hfree =>
      have hne : other ≠ slot := by
        rintro rfl
        simp [hfree] at howner
      simp [setSlot_slots, hne, howner]
    case store i slot result _ =>
      rw [moveTo_slots, setSlot_slots]
      split
      · rename_i heq
        rw [Slot.put_owner, ← heq, howner]
      · exact howner
    case release i slot result hphase =>
      have hne : other ≠ slot := by
        rintro rfl
        have hmine := h i other (by simp [hphase, Phase.lock?])
        exact hj (Option.some.inj (howner.symm.trans hmine))
      simp [setSlot_slots, hne, howner]
    all_goals exact howner

/-- Two calls do not hold the lock of one key at the same time. -/
theorem Layout.lock_unique (h : Layout keys s) (hexclusive : Exclusive s) {slot' : Nat}
    (hi : (s.phases i).lock? = some slot) (hj : (s.phases j).lock? = some slot')
    (hkeys : keys i = keys j) : i = j := by
  have hslot := h.knows i slot (Phase.slot?_of_lock? hi)
  have hslot' := h.knows j slot' (Phase.slot?_of_lock? hj)
  obtain rfl : slot = slot' := Option.some.inj (hslot.symm.trans (hkeys ▸ hslot'))
  exact Option.some.inj ((hexclusive i slot hi).symm.trans (hexclusive j slot hj))

/-! ### Sheets -/

theorem Layout.stored?_eq (h : Layout keys s) (hslot : (s.phases i).slot? = some slot) :
    s.stored? (keys i) = (s.slots slot).sheet? := by
  rw [stored?, h.knows i slot hslot, Option.bind_some]

theorem stored?_setSlot {value : Slot} (hsheet : value.sheet? = (s.slots slot).sheet?) :
    (s.setSlot slot value).stored? = s.stored? := by
  funext key
  unfold stored?
  rw [setSlot_table]
  refine Option.bind_congr fun other _ => ?_
  rw [setSlot_slots]
  split
  · rename_i heq
    rw [heq, hsheet]
  · rfl

theorem Layout.stored?_put (h : Layout keys s) (hslot : (s.phases i).slot? = some slot) (sheet : Sheet) :
    (s.setSlot slot ((s.slots slot).put (.ok sheet))).stored? =
      Function.update s.stored? (keys i) (some sheet) := by
  have hlookup := h.knows i slot hslot
  funext key
  rw [Function.update_apply, stored?, setSlot_table]
  split
  · rename_i heq
    rw [heq, hlookup, Option.bind_some, setSlot_slots, if_pos rfl]
    rfl
  · rename_i hne
    refine Option.bind_congr fun other hother => ?_
    rw [setSlot_slots, if_neg]
    rintro rfl
    exact hne (h.key_unique hother hlookup)

/-- The only step that changes a sheet in a slot is to store one that was packed. -/
theorem Layout.stored?_step (h : Layout keys s) (hstep : Step keys s e s') :
    s'.stored? = s.stored? ∨ ∃ i slot sheet, e = .store i ∧ s.phases i = .packed slot (.ok sheet) ∧
      s'.stored? = Function.update s.stored? (keys i) (some sheet) := by
  cases hstep
  case make i hphase hnone =>
    refine .inl ?_
    rw [stored?_moveTo]
    funext key
    rw [stored?, stored?, lookup_addSlot, addSlot_slots]
    by_cases hkey : key = keys i
    · rw [if_pos hkey, hkey, hnone, Option.none_or, Option.bind_some, Option.bind_none]
      exact h.unused s.table.length (Nat.le_refl _)
    · rw [if_neg hkey, Option.or_none]
  case store i slot result hphase =>
    rw [stored?_moveTo]
    cases result with
    | error error => exact .inl (stored?_setSlot rfl)
    | ok sheet =>
      exact .inr ⟨i, slot, sheet, rfl, hphase, h.stored?_put (by rw [hphase]; rfl) sheet⟩
  case acquire =>
    rw [stored?_moveTo]
    exact .inl (stored?_setSlot rfl)
  case release =>
    rw [stored?_moveTo]
    exact .inl (stored?_setSlot rfl)
  all_goals exact .inl rfl

/-- A call that has packed a sheet can only store it. -/
theorem Layout.stored?_of_packed (h : Layout keys s) (hstep : Step keys s e s')
    (hphase : s.phases e.call = .packed slot (.ok sheet)) :
    s'.stored? (keys e.call) = some sheet := by
  cases hstep
  case store i slot result hphase' =>
    cases hphase'.symm.trans hphase
    rw [stored?_moveTo, h.stored?_put (i := i) (by rw [hphase']; rfl)]
    exact Function.update_self ..
  case find hphase' _ => cases hphase'.symm.trans hphase
  case make hphase' _ => cases hphase'.symm.trans hphase
  case acquire hphase' _ => cases hphase'.symm.trans hphase
  case hit hphase' _ => cases hphase'.symm.trans hphase
  case start hphase' _ => cases hphase'.symm.trans hphase
  case finish hphase' => cases hphase'.symm.trans hphase
  case release hphase' => cases hphase'.symm.trans hphase

/-! ### Results -/

def Phase.result? : Phase → Option Result
  | packed _ result | leaving _ result | returned result => some result
  | ready | waiting _ | locked _ | packing _ => none

/-- A call keeps its result, and it gets one from its pack or from its slot. -/
theorem Layout.result?_step (h : Layout keys s) (hstep : Step keys s e s') (j : Nat) :
    (s'.phases j).result? = (s.phases j).result? ∨ (s.phases j).result? = none ∧
      ((∃ result, e = .finish j result ∧ (s'.phases j).result? = some result) ∨
        ∃ sheet, e = .hit j ∧ s.stored? (keys j) = some sheet ∧
          (s'.phases j).result? = some (.ok sheet)) := by
  by_cases hj : j = e.call
  · subst hj
    cases hstep <;> simp only [Event.call, moveTo_phases_self]
    case find hphase _ => exact .inl (by rw [hphase]; rfl)
    case make hphase _ => exact .inl (by rw [hphase]; rfl)
    case acquire hphase _ => exact .inl (by rw [hphase]; rfl)
    case hit i slot sheet hphase hsheet =>
      refine .inr ⟨by rw [hphase]; rfl, .inr ⟨sheet, trivial, ?_, rfl⟩⟩
      rw [h.stored?_eq (i := i) (by rw [hphase]; rfl), hsheet]
    case start hphase _ => exact .inl (by rw [hphase]; rfl)
    case finish result hphase =>
      exact .inr ⟨by rw [hphase]; rfl, .inl ⟨result, rfl, rfl⟩⟩
    case store hphase => exact .inl (by rw [hphase]; rfl)
    case release hphase => exact .inl (by rw [hphase]; rfl)
  · exact .inl (by rw [hstep.phases_of_ne hj])

theorem Layout.result?_mono (h : Layout keys s) (hstep : Step keys s e s')
    (hresult : (s.phases j).result? = some result) : (s'.phases j).result? = some result := by
  rcases h.result?_step hstep j with hsame | ⟨hnone, -⟩
  · rw [hsame, hresult]
  · rw [hnone] at hresult
    cases hresult

theorem packed_append (keys : Nat → Text) (events more : List Event) :
    (packed keys (events ++ more)).sheets = (packed keys events).sheets ++ (packed keys more).sheets :=
  List.filterMap_append ..

theorem packed_singleton (keys : Nat → Text) (e : Event) :
    packed keys [e] = ⟨(e.packed? keys).toList⟩ := by
  rw [packed, List.filterMap_cons]
  cases e.packed? keys <;> rfl

theorem get?_packed_append (keys : Nat → Text) (events more : List Event) (key : Text) :
    (packed keys (events ++ more)).get? key =
      ((packed keys events).get? key).or ((packed keys more).get? key) := by
  rw [SheetCache.get?, packed_append, List.lookup_append]
  rfl

theorem get?_packed_mono (h : (packed keys events).get? key = some sheet) (more : List Event) :
    (packed keys (events ++ more)).get? key = some sheet := by
  rw [get?_packed_append, h, Option.some_or]

/-- What a run has come to, against the sheets that were packed in it: the slots have them,
up to one that is about to be stored, and so do the calls that have succeeded. The calls that
have failed did so in their own packs. -/
structure Accounts (keys : Nat → Text) (events : List Event) (s : SharedCache) : Prop where
  once : ((packed keys events).sheets.map Prod.fst).Nodup
  stored : ∀ key sheet, s.stored? key = some sheet → (packed keys events).get? key = some sheet
  kept : ∀ key sheet, (packed keys events).get? key = some sheet → s.stored? key = some sheet ∨
    ∃ i slot, keys i = key ∧ s.phases i = .packed slot (.ok sheet)
  fresh : ∀ i slot, s.phases i = .packing slot → (packed keys events).get? (keys i) = none
  finished : ∀ i result, .finish i result ∈ events → (s.phases i).result? = some result
  hit : ∀ i, .hit i ∈ events → ∃ sheet, (s.phases i).result? = some (.ok sheet)
  failed : ∀ i error, (s.phases i).result? = some (.error error) → .finish i (.error error) ∈ events
  succeeded : ∀ i sheet, (s.phases i).result? = some (.ok sheet) →
    (packed keys events).get? (keys i) = some sheet

theorem Accounts.initial (keys : Nat → Text) : Accounts keys [] .initial where
  once := .nil
  stored _ _ h := by cases h
  kept _ _ h := by cases h
  fresh _ _ h := by cases h
  finished _ _ h := by cases h
  hit _ h := by cases h
  failed _ _ h := by cases h
  succeeded _ _ h := by cases h

theorem get?_eq_none_iff {cache : SheetCache} :
    cache.get? key = none ↔ key ∉ cache.sheets.map Prod.fst := by
  rw [SheetCache.get?, List.lookup_eq_none_iff]
  constructor
  · rintro h hmem
    obtain ⟨pair, hpair, rfl⟩ := List.mem_map.1 hmem
    exact absurd (h pair hpair) (by simp)
  · rintro h pair hpair
    exact bne_iff_ne.2 fun hkey => h (List.mem_map.2 ⟨pair, hpair, hkey.symm⟩)

/-- A sheet is packed by a call that has been packing it. -/
theorem Step.of_packed? (hstep : Step keys s e s') (hpacked : e.packed? keys = some (key, sheet)) :
    ∃ i slot, e = .finish i (.ok sheet) ∧ keys i = key ∧ s.phases i = .packing slot ∧
      s'.phases i = .packed slot (.ok sheet) := by
  cases hstep <;> try cases hpacked
  case finish i slot result hphase =>
    cases result with
    | error error => cases hpacked
    | ok sheet' =>
      cases hpacked
      exact ⟨i, slot, rfl, rfl, hphase, moveTo_phases_self ..⟩

theorem Accounts.once_step (h : Accounts keys events s) (hstep : Step keys s e s') :
    ((packed keys (events ++ [e])).sheets.map Prod.fst).Nodup := by
  rw [packed_append, packed_singleton]
  cases hpacked : e.packed? keys with
  | none => simpa using h.once
  | some pair =>
    obtain ⟨i, slot, -, hkey, hphase, -⟩ := hstep.of_packed? hpacked
    rw [Option.toList_some, List.map_append]
    refine List.nodup_append.2 ⟨h.once, by simp, fun a ha b hb hab => ?_⟩
    obtain rfl : b = pair.1 := List.mem_singleton.1 hb
    exact get?_eq_none_iff.1 (h.fresh i slot hphase) (hkey ▸ hab ▸ ha)

section Step

variable (h : Accounts keys events s) (hlayout : Layout keys s)
include h hlayout

theorem Accounts.stored_step (hstep : Step keys s e s') (key : Text) (sheet : Sheet)
    (hstored : s'.stored? key = some sheet) :
    (packed keys (events ++ [e])).get? key = some sheet := by
  refine get?_packed_mono ?_ [e]
  rcases hlayout.stored?_step hstep with hsame | ⟨i, slot, sheet', rfl, hphase, hput⟩
  · exact h.stored key sheet (hsame ▸ hstored)
  · rw [hput, Function.update_apply] at hstored
    split at hstored
    · rename_i heq
      rw [heq, h.succeeded i sheet' (by rw [hphase]; rfl), hstored]
    · exact h.stored key sheet hstored

theorem Accounts.kept_step (hstep : Step keys s e s') (key : Text) (sheet : Sheet)
    (hget : (packed keys (events ++ [e])).get? key = some sheet) :
    s'.stored? key = some sheet ∨ ∃ i slot, keys i = key ∧ s'.phases i = .packed slot (.ok sheet) := by
  rw [get?_packed_append, packed_singleton] at hget
  cases hbefore : (packed keys events).get? key with
  | none =>
    -- it was packed just now
    cases hpacked : e.packed? keys with
    | none =>
      rw [hbefore, hpacked] at hget
      cases hget
    | some pair =>
      obtain ⟨i, slot, -, hkey, -, hphase⟩ := hstep.of_packed? hpacked
      rw [hbefore, hpacked, Option.none_or, Option.toList_some] at hget
      obtain rfl | hmem := List.mem_cons.1 (SheetCache.mem_of_get? hget)
      · exact .inr ⟨i, slot, hkey, hphase⟩
      · cases hmem
  | some sheet' =>
    obtain rfl : sheet' = sheet := by
      rw [hbefore, Option.some_or] at hget
      exact Option.some.inj hget
    rcases h.kept key sheet' hbefore with hstored | ⟨j, slot, rfl, hphase⟩
    · refine .inl ?_
      rcases hlayout.stored?_step hstep with hsame | ⟨i, slot, sheet, rfl, hphase, hput⟩
      · rw [hsame, hstored]
      · rw [hput, Function.update_apply]
        split
        · rename_i heq
          rw [← hbefore, heq, h.succeeded i sheet (by rw [hphase]; rfl)]
        · exact hstored
    · by_cases hj : j = e.call
      · -- the call that has packed it can only store it
        subst hj
        exact .inl (hlayout.stored?_of_packed hstep hphase)
      · exact .inr ⟨j, slot, rfl, by rw [hstep.phases_of_ne hj, hphase]⟩

theorem Accounts.succeeded_step (hstep : Step keys s e s') (i : Nat) (sheet : Sheet)
    (hresult : (s'.phases i).result? = some (.ok sheet)) :
    (packed keys (events ++ [e])).get? (keys i) = some sheet := by
  rcases hlayout.result?_step hstep i with hsame | ⟨-, ⟨result, rfl, hnew⟩ | ⟨sheet', -, hstored, hnew⟩⟩
  · exact get?_packed_mono (h.succeeded i sheet (hsame ▸ hresult)) [e]
  · obtain rfl : result = .ok sheet := Option.some.inj (hnew.symm.trans hresult)
    have hpacked : (Event.finish i (.ok sheet)).packed? keys = some (keys i, sheet) := rfl
    obtain ⟨j, slot, heq, -, hphase, -⟩ := hstep.of_packed? hpacked
    obtain ⟨rfl, -⟩ := Event.finish.inj heq
    rw [get?_packed_append, packed_singleton, h.fresh i slot hphase]
    simp [Event.packed?, SheetCache.get?]
  · obtain rfl : sheet' = sheet := by
      cases hnew.symm.trans hresult
      rfl
    exact get?_packed_mono (h.stored (keys i) sheet' hstored) [e]

variable (hexclusive : Exclusive s)
include hexclusive

/-- A call that finds no sheet in its slot is the first to pack one. -/
theorem Accounts.get?_of_locked (hphase : s.phases i = .locked slot)
    (hsheet : (s.slots slot).sheet? = none) : (packed keys events).get? (keys i) = none := by
  refine Option.eq_none_iff_forall_ne_some.2 fun sheet hget => ?_
  rcases h.kept _ _ hget with hstored | ⟨j, slot', hkeys, hphase'⟩
  · rw [hlayout.stored?_eq (i := i) (by rw [hphase]; rfl), hsheet] at hstored
    cases hstored
  · obtain rfl : i = j := hlayout.lock_unique hexclusive (by rw [hphase]; rfl)
      (by rw [hphase']; rfl) hkeys.symm
    cases hphase.symm.trans hphase'

theorem Accounts.fresh_step (hstep : Step keys s e s') (i slot : Nat)
    (hphase : s'.phases i = .packing slot) : (packed keys (events ++ [e])).get? (keys i) = none := by
  by_cases hi : i = e.call
  · subst hi
    cases hstep <;> simp only [Event.call, moveTo_phases_self, reduceCtorEq] at hphase
    case start i slot hlocked hsheet =>
      have hnone := h.get?_of_locked hlayout hexclusive hlocked hsheet
      rw [get?_packed_append, Event.call, hnone]
      rfl
  · rw [hstep.phases_of_ne hi] at hphase
    rw [get?_packed_append, packed_singleton, h.fresh i slot hphase, Option.none_or]
    cases hpacked : e.packed? keys with
    | none => rfl
    | some pair =>
      obtain ⟨j, slot', rfl, hkey, hphase', -⟩ := hstep.of_packed? hpacked
      have hne : keys i ≠ pair.1 := by
        rintro heq
        exact hi (hlayout.lock_unique (j := j) hexclusive (by rw [hphase]; rfl)
          (by rw [hphase']; rfl) (heq.trans hkey.symm))
      exact get?_eq_none_iff.2 (by simpa using hne)

theorem Accounts.step (hstep : Step keys s e s') : Accounts keys (events ++ [e]) s' where
  once := h.once_step hstep
  stored := h.stored_step hlayout hstep
  kept := h.kept_step hlayout hstep
  fresh := h.fresh_step hlayout hexclusive hstep
  finished i result hmem := by
    rcases List.mem_append.1 hmem with hmem | hmem
    · exact hlayout.result?_mono hstep (h.finished i result hmem)
    · obtain rfl := List.mem_singleton.1 hmem
      cases hstep
      rw [moveTo_phases_self]
      rfl
  hit i hmem := by
    rcases List.mem_append.1 hmem with hmem | hmem
    · obtain ⟨sheet, hresult⟩ := h.hit i hmem
      exact ⟨sheet, hlayout.result?_mono hstep hresult⟩
    · obtain rfl := List.mem_singleton.1 hmem
      cases hstep
      rw [moveTo_phases_self]
      exact ⟨_, rfl⟩
  failed i error hresult := by
    refine List.mem_append.2 ?_
    rcases hlayout.result?_step hstep i with hsame | ⟨-, ⟨result, rfl, hnew⟩ | ⟨sheet, -, -, hnew⟩⟩
    · exact .inl (h.failed i error (hsame ▸ hresult))
    · cases hnew.symm.trans hresult
      exact .inr (List.mem_singleton.2 rfl)
    · cases hnew.symm.trans hresult
  succeeded := h.succeeded_step hlayout hstep

end Step

/-! ### Runs -/

theorem Run.layout (h : Run keys events s) : Layout keys s := by
  induction h with
  | initial => exact .initial keys
  | step _ hstep ih => exact ih.step hstep

theorem Run.exclusive (h : Run keys events s) : Exclusive s := by
  induction h with
  | initial => exact .initial
  | step _ hstep ih => exact ih.step hstep

theorem Run.accounts (h : Run keys events s) : Accounts keys events s := by
  induction h with
  | initial => exact .initial keys
  | step hrun hstep ih => exact ih.step hrun.layout hrun.exclusive hstep

theorem run_concat_iff : Run keys (events ++ [e]) s' ↔ ∃ s, Run keys events s ∧ Step keys s e s' := by
  constructor
  · intro h
    generalize hall : events ++ [e] = all at h
    cases h with
    | initial => simp at hall
    | @step events' e' s s' hrun hstep =>
      obtain ⟨rfl, hlast⟩ := List.append_inj' hall rfl
      obtain rfl := List.singleton_inj.1 hlast
      exact ⟨s, hrun, hstep⟩
  · rintro ⟨s, hrun, hstep⟩
    exact hrun.step hstep

/-- A run comes to each of its steps. -/
theorem Run.exists_step {before after : List Event} (h : Run keys (before ++ e :: after) s) :
    ∃ s₀ s₁, Run keys before s₀ ∧ Step keys s₀ e s₁ := by
  induction after using List.reverseRecOn generalizing s with
  | nil =>
    obtain ⟨s₀, hrun, hstep⟩ := run_concat_iff.1 h
    exact ⟨s₀, s, hrun, hstep⟩
  | append_singleton after last ih =>
    rw [← List.cons_append, ← List.append_assoc] at h
    obtain ⟨s', hrun, -⟩ := run_concat_iff.1 h
    exact ih hrun

/-- When no call is in progress, the slots have the sheets that were packed. -/
theorem Run.stored?_eq (h : Run keys events s) (hrest : s.AtRest) :
    s.stored? = (packed keys events).get? := by
  funext key
  have haccounts := h.accounts
  cases hget : (packed keys events).get? key with
  | some sheet =>
    rcases haccounts.kept key sheet hget with hstored | ⟨i, slot, -, hphase⟩
    · exact hstored
    · rcases hrest i with hready | ⟨result, hreturned⟩
      · cases hphase.symm.trans hready
      · cases hphase.symm.trans hreturned
  | none =>
    refine Option.eq_none_iff_forall_ne_some.2 fun sheet hstored => ?_
    rw [haccounts.stored key sheet hstored] at hget
    cases hget

/-- The slots that have a sheet are as many as the keys. -/
theorem Layout.size_eq (h : Layout keys s) {sheets : List Text} (hnodup : sheets.Nodup)
    (hmem : ∀ key, key ∈ sheets ↔ (s.stored? key).isSome = true) : s.size = sheets.length := by
  have hkeys : ((s.table.filter fun p => (s.slots p.2).sheet?.isSome).map Prod.fst).Nodup :=
    h.distinct.sublist (List.filter_sublist.map _)
  have hperm : ((s.table.filter fun p => (s.slots p.2).sheet?.isSome).map Prod.fst).Perm sheets := by
    refine (List.perm_ext_iff_of_nodup hkeys hnodup).2 fun key => ?_
    rw [hmem, stored?]
    constructor
    · intro hkey
      obtain ⟨⟨key', slot⟩, hslot, rfl⟩ := List.mem_map.1 hkey
      obtain ⟨hslot, hsheet⟩ := List.mem_filter.1 hslot
      obtain ⟨slot', hlookup⟩ : ∃ slot', s.table.lookup key' = some slot' := by
        cases hlookup : s.table.lookup key' with
        | none => simpa using List.lookup_eq_none_iff.1 hlookup _ hslot
        | some slot' => exact ⟨slot', rfl⟩
      obtain rfl : slot = slot' := congrArg Prod.snd
        (List.inj_on_of_nodup_map h.distinct hslot (mem_of_lookup hlookup) rfl)
      rwa [hlookup]
    · intro hstored
      cases hlookup : s.table.lookup key with
      | none => simp [hlookup] at hstored
      | some slot =>
        rw [hlookup, Option.bind_some] at hstored
        exact List.mem_map.2 ⟨(key, slot), List.mem_filter.2 ⟨mem_of_lookup hlookup, hstored⟩, rfl⟩
  rw [size, List.countP_eq_length_filter, ← hperm.length_eq, List.length_map]

/-! ### Each key is packed once -/

section Once

variable (h : Run keys events s)
include h

/-- Calls do not pack for the same key at the same time. -/
theorem Run.packing_unique {slot' : Nat} (hi : s.phases i = .packing slot)
    (hj : s.phases j = .packing slot') (hkeys : keys i = keys j) : i = j :=
  h.layout.lock_unique h.exclusive (by rw [hi]; rfl) (by rw [hj]; rfl) hkeys

/-- A sheet that was packed is the only one of its key. -/
theorem Run.get?_of_finish (hmem : .finish i (.ok sheet) ∈ events) :
    (packed keys events).get? (keys i) = some sheet :=
  h.accounts.succeeded i sheet (h.accounts.finished i (.ok sheet) hmem)

omit h in
theorem finish_of_get? (hget : (packed keys events).get? key = some sheet) :
    ∃ i, keys i = key ∧ .finish i (.ok sheet) ∈ events := by
  obtain ⟨e, hmem, hpacked⟩ := List.mem_filterMap.1 (SheetCache.mem_of_get? hget)
  cases e <;> try cases hpacked
  case finish i result =>
    cases result with
    | error error => cases hpacked
    | ok sheet =>
      cases hpacked
      exact ⟨i, rfl, hmem⟩

/-- A failing pack changes no sheet, and neither does what its call does behind it. -/
theorem Run.stored?_of_failed {error : SpriteError}
    (hmem : .finish i (.error error) ∈ events ++ [e]) (hcall : e.call = i)
    (hstep : Step keys s e s') : s'.stored? = s.stored? := by
  refine (h.layout.stored?_step hstep).resolve_right ?_
  rintro ⟨j, slot, sheet, rfl, hphase, -⟩
  obtain rfl : j = i := hcall
  rcases List.mem_append.1 hmem with hmem | hmem
  · have hresult := h.accounts.finished j _ hmem
    rw [hphase] at hresult
    cases hresult
  · cases List.mem_singleton.1 hmem

end Once

/-- No pack of a key starts behind one that has succeeded. -/
theorem Run.not_finish_of_start {before after : List Event}
    (h : Run keys (before ++ .start i :: after) s) (hkeys : keys j = keys i) (sheet : Sheet) :
    .finish j (.ok sheet) ∉ before := by
  obtain ⟨s₀, s₁, hrun, hstep⟩ := h.exists_step
  intro hmem
  have hget := hrun.get?_of_finish hmem
  cases hstep with
  | start hphase hsheet =>
    rw [hkeys, hrun.accounts.get?_of_locked hrun.layout hrun.exclusive hphase hsheet] at hget
    cases hget

/-- When no call is in progress, there are as many sheets as keys that were packed. -/
theorem Run.size_eq (h : Run keys events s) (hrest : s.AtRest) :
    s.size = ((packed keys events).sheets.map Prod.fst).toFinset.card := by
  have hnodup := h.accounts.once
  rw [List.toFinset_card_of_nodup hnodup]
  refine h.layout.size_eq hnodup fun key => ?_
  rw [h.stored?_eq hrest, Option.isSome_iff_ne_none, Ne, get?_eq_none_iff, not_not]

/-! ### One call after the other -/

variable {before after : List Event}

/-- A call that packs gets what `getOrPack` gives for the sheets packed before. -/
theorem Run.getOrPack_of_finish (h : Run keys (before ++ .finish i result :: after) s)
    {σ : Type} (pack : σ → Result × σ) (t : σ) (hpack : (pack t).1 = result) :
    (packed keys before).getOrPack (keys i) pack t =
      (result, packed keys (before ++ [.finish i result]), (pack t).2) := by
  obtain ⟨s₀, s₁, hrun, hstep⟩ := h.exists_step
  cases hstep with
  | finish _ hphase =>
    have hcache : packed keys (before ++ [.finish i result]) =
        ⟨(packed keys before).sheets ++ ((Event.finish i result).packed? keys).toList⟩ :=
      congrArg SheetCache.mk ((packed_append keys before _).trans (by rw [packed_singleton]))
    rw [SheetCache.getOrPack, hrun.accounts.fresh i _ hphase, hcache]
    cases ht : pack t with
    | mk result' t' =>
      obtain rfl : result' = result := by rwa [ht] at hpack
      cases result' with
      | ok sheet => rfl
      | error error => simp [Event.packed?]

/-- A call that finds a sheet finds the one that was packed before. -/
theorem Run.get?_of_hit (h : Run keys (before ++ .hit i :: after) s) :
    ∃ sheet, (s.phases i).result? = some (.ok sheet) ∧
      (packed keys before).get? (keys i) = some sheet := by
  obtain ⟨s₀, s₁, hrun, hstep⟩ := h.exists_step
  obtain ⟨sheet, hresult⟩ := h.accounts.hit i (by simp)
  refine ⟨sheet, hresult, ?_⟩
  cases hstep with
  | @hit _ slot sheet' hphase hsheet =>
    have hslot : (s₀.phases i).slot? = some slot := by rw [hphase]; rfl
    have hstored := hrun.layout.stored?_eq hslot
    have hget := hrun.accounts.stored _ _ (hstored.trans hsheet)
    have hlater := get?_packed_mono hget (.hit i :: after)
    rw [h.accounts.succeeded i sheet hresult] at hlater
    rw [hget, hlater]

/-- However the steps of calls are interleaved, each key is packed once: packs of a key exclude
each other, and none starts behind one that has succeeded, while one that fails concerns its own
call only. Each call gets what it would get if calls were made one after the other. -/
theorem Run.packs_once (h : Run keys events s) :
    -- no two packs of a key are in progress at the same time
    (∀ i j slot slot', s.phases i = .packing slot → s.phases j = .packing slot' →
      keys i = keys j → i = j) ∧
    -- at most one pack of a key succeeds
    (∀ key, ((packed keys events).sheets.map Prod.fst).count key ≤ 1) ∧
    -- and none starts behind it
    (∀ before i after, events = before ++ .start i :: after →
      ∀ j sheet, keys j = keys i → .finish j (.ok sheet) ∉ before) ∧
    -- all calls that succeed get the sheet that it made
    (∀ i sheet, s.phases i = .returned (.ok sheet) →
      (∃ j, keys j = keys i ∧ .finish j (.ok sheet) ∈ events) ∧
        ∀ j sheet', keys j = keys i → .finish j (.ok sheet') ∈ events → sheet' = sheet) ∧
    -- the error of a pack is that of its own call, and no sheet is changed by this call
    (∀ i error, s.phases i = .returned (.error error) → .finish i (.error error) ∈ events) ∧
    (∀ i error result, .finish i (.error error) ∈ events → s.phases i = .returned result →
      result = .error error) ∧
    (∀ i error e s', .finish i (.error error) ∈ events ++ [e] → e.call = i → Step keys s e s' →
      s'.stored? = s.stored?) ∧
    -- when no call is in progress, the sheets are counted
    (s.AtRest → s.size = ((packed keys events).sheets.map Prod.fst).toFinset.card) ∧
    -- each result is that of a call behind those that have packed before it
    (∀ before i result after, events = before ++ .finish i result :: after →
      ∀ {σ : Type} (pack : σ → Result × σ) (t : σ), (pack t).1 = result →
        (packed keys before).getOrPack (keys i) pack t =
          (result, packed keys (before ++ [.finish i result]), (pack t).2)) ∧
    ∀ before i after, events = before ++ .hit i :: after →
      ∃ sheet, (∀ result, s.phases i = .returned result → result = .ok sheet) ∧
        ∀ {σ : Type} (pack : σ → Result × σ) (t : σ),
          (packed keys before).getOrPack (keys i) pack t = (.ok sheet, packed keys before, t) := by
  have haccounts := h.accounts
  refine ⟨fun i j slot slot' => h.packing_unique, fun key => ?_, ?_, fun i sheet hphase => ?_,
    fun i error hphase => ?_, fun i error result hmem hphase => ?_,
    fun i error e s' => h.stored?_of_failed, h.size_eq, ?_, ?_⟩
  · exact List.nodup_iff_count_le_one.1 haccounts.once key
  · rintro before i after rfl j sheet hkeys
    exact h.not_finish_of_start hkeys sheet
  · have hget := haccounts.succeeded i sheet (by rw [hphase]; rfl)
    refine ⟨finish_of_get? hget, fun j sheet' hkeys hmem => ?_⟩
    have hget' := h.get?_of_finish hmem
    rw [hkeys, hget] at hget'
    exact (Option.some.inj hget').symm
  · exact haccounts.failed i error (by rw [hphase]; rfl)
  · have hresult := haccounts.finished i _ hmem
    rw [hphase] at hresult
    exact Option.some.inj hresult
  · rintro before i result after rfl σ pack t hpack
    exact h.getOrPack_of_finish pack t hpack
  · rintro before i after rfl
    obtain ⟨sheet, hresult, hget⟩ := h.get?_of_hit
    refine ⟨sheet, fun result hphase => ?_, SheetCache.getOrPack_of_get?_eq_some hget⟩
    rw [hphase] at hresult
    exact Option.some.inj hresult

/-- Three calls for one key: the first fails to pack while the second waits for it, which then
packs, and the third finds the sheet. -/
def retry : List Event :=
  [.find 0, .find 1, .acquire 0, .start 0, .finish 0 (.error (.missingImage ['x'])), .store 0,
    .release 0, .acquire 1, .start 1, .finish 1 (.ok ⟨⟨['k']⟩, ⟨1, 1⟩, []⟩), .store 1, .release 1,
    .find 2, .acquire 2, .hit 2, .release 2]

theorem run_retry :
    ∃ s, Run (fun _ => ['k']) retry s ∧ s.AtRest ∧
      s.phases 0 = .returned (.error (.missingImage ['x'])) ∧
      s.phases 2 = .returned (.ok ⟨⟨['k']⟩, ⟨1, 1⟩, []⟩) := by
  have hinitial : Run (fun _ => ['k']) [] initial := .initial
  have hwaiting := (hinitial.step (@Step.make _ _ 0 rfl rfl)).step (@Step.find _ _ 1 0 rfl rfl)
  have hfailed := ((((hwaiting.step (@Step.acquire _ _ 0 0 rfl rfl)).step
    (@Step.start _ _ 0 0 rfl rfl)).step
    (@Step.finish _ _ 0 0 (.error (.missingImage ['x'])) rfl)).step
    (@Step.store _ _ 0 0 _ rfl)).step (@Step.release _ _ 0 0 _ rfl)
  have hpacked := ((((hfailed.step (@Step.acquire _ _ 1 0 rfl rfl)).step
    (@Step.start _ _ 1 0 rfl rfl)).step
    (@Step.finish _ _ 1 0 (.ok ⟨⟨['k']⟩, ⟨1, 1⟩, []⟩) rfl)).step
    (@Step.store _ _ 1 0 _ rfl)).step (@Step.release _ _ 1 0 _ rfl)
  have hfound := (((hpacked.step (@Step.find _ _ 2 0 rfl rfl)).step
    (@Step.acquire _ _ 2 0 rfl rfl)).step (@Step.hit _ _ 2 0 _ rfl rfl)).step
    (@Step.release _ _ 2 0 _ rfl)
  refine ⟨_, hfound, fun i => ?_, rfl, rfl⟩
  match i with
  | 0 => exact .inr ⟨_, rfl⟩
  | 1 => exact .inr ⟨_, rfl⟩
  | 2 => exact .inr ⟨_, rfl⟩
  | _ + 3 => exact .inl rfl

theorem Run.packs_once_retry :
    ∃ s, Run (fun _ => ['k']) retry s ∧ s.size = 1 ∧
      s.phases 0 = .returned (.error (.missingImage ['x'])) ∧
      s.phases 2 = .returned (.ok ⟨⟨['k']⟩, ⟨1, 1⟩, []⟩) := by
  obtain ⟨s, hrun, hrest, hfailed, hfound⟩ := run_retry
  obtain ⟨-, -, -, -, -, -, -, hsize, -⟩ := hrun.packs_once
  exact ⟨s, hrun, (hsize hrest).trans (by decide), hfailed, hfound⟩

end SharedCache

end StylePrep
