import Mathlib.Data.List.Forall2
import Mathlib.Data.List.Nodup
import StylePrep.Signature

/-!
# How arguments bind to parameters

A call gives some of its arguments by position and the others by keyword. `Binds` says when
a list of arguments suits a list of parameters: the positional ones come first and are not too
many, no parameter is named twice or besides its position, and whatever stays without an
argument has a default. `Gets` says which value a parameter then gets. Neither speaks of slots
or of the order in which arguments are placed.

Placing the arguments one by one fills slots, and what is filled in front of an argument
determines what is filled behind it (`Filled.keyword`, `Filled.position`). So a run over all
arguments succeeds exactly if they bind (`bind_eq_ok_iff`), and the values are those that
`Gets` tells (`normalize_binds`). Keyword arguments may come in any order (`Reordered`).
-/

namespace StylePrep

open Text

/-- The parameters of a signature have different names. -/
theorem Parameter.nodup_of_go {earlier params : List Parameter} {args : List Text}
    (h : parseAll.go earlier args = .ok params) (hearlier : (earlier.map Parameter.name).Nodup) :
    (params.map Parameter.name).Nodup := by
  induction args generalizing earlier with
  | nil =>
    obtain rfl : earlier = params := by simpa [parseAll.go] using h
    exact hearlier
  | cons arg args ih =>
    rw [parseAll.go] at h
    cases hparam : parse arg with
    | error fault => simp [hparam, bind, Except.bind] at h
    | ok param =>
      simp only [hparam, bind, Except.bind] at h
      split at h
      case isTrue => cases h
      case isFalse hnew =>
        apply ih h
        rw [List.map_append, List.map_singleton, List.nodup_append]
        refine ⟨hearlier, List.nodup_singleton _, ?_⟩
        rintro name hname _ hlast rfl
        obtain ⟨other, hother, hsame⟩ := List.mem_map.1 hname
        apply hnew
        rw [List.any_eq_true]
        exact ⟨other, hother, by simpa [hsame] using hlast⟩

namespace Signature

theorem nodup_of_parse {source : Text} {sig : Signature} (h : parse source = .ok sig) :
    (sig.params.map Parameter.name).Nodup := by
  unfold parse at h
  split at h
  case h_1 => cases h
  case h_2 call _ =>
    split at h
    case h_1 => cases h
    case h_2 params hparams =>
      cases h
      exact Parameter.nodup_of_go hparams List.nodup_nil

/-- The keywords among the arguments, each with its value, in order. -/
def keywords (args : List Text) : List (Text × Text) := args.filterMap keyword?

@[simp] theorem keywords_append (args args' : List Text) :
    keywords (args ++ args') = keywords args ++ keywords args' := List.filterMap_append

theorem keywords_of_some {arg : Text} {entry : Text × Text} (h : keyword? arg = some entry) :
    keywords [arg] = [entry] := by
  simp [keywords, h]

/-- The arguments can be placed, the first `m` of them by position: they are no more than the
parameters, and every other one is for a parameter of its own behind these. -/
structure Places (params : List Parameter) (args : List Text) (m : Nat) : Prop where
  le_params : m ≤ params.length
  le_args : m ≤ args.length
  positional_iff : ∀ i arg, args[i]? = some arg → (keyword? arg = none ↔ i < m)
  distinct : ((keywords args).map Prod.fst).Nodup
  named : ∀ name ∈ (keywords args).map Prod.fst, ∃ i param,
    m ≤ i ∧ params[i]? = some param ∧ param.name = name

/-- The arguments can be placed, and parameters without one have a default. -/
structure Binds (params : List Parameter) (args : List Text) (m : Nat) : Prop extends
    Places params args m where
  supplied : ∀ i param, m ≤ i → params[i]? = some param →
    param.name ∈ (keywords args).map Prod.fst ∨ param.default?.isSome

/-- The argument for the parameter called `name` in position `i` has the value `value`. -/
def Given (args : List Text) (m i : Nat) (name value : Text) : Prop :=
  if i < m then args[i]? = some value else (name, value) ∈ keywords args

/-- A parameter in position `i` gets the value of its argument, or else its default. -/
def Gets (args : List Text) (m i : Nat) (param : Parameter) (value : Text) : Prop :=
  Given args m i param.name value ∨
    (m ≤ i ∧ param.name ∉ (keywords args).map Prod.fst ∧ param.default? = some value)

/-- Slots that hold the arguments placed so far. -/
structure Filled (params : List Parameter) (args : List Text) (m : Nat)
    (slots : List (Option Text)) : Prop extends Places params args m where
  length_eq : slots.length = params.length
  slot_iff : ∀ i param value, params[i]? = some param →
    (slots[i]? = some (some value) ↔ Given args m i param.name value)

variable {sig : Signature} {params : List Parameter} {args args' done rest : List Text}
  {arg name value : Text} {param other : Parameter} {slots : List (Option Text)} {m k i j : Nat}

/-- Names tell parameters apart. -/
theorem position_unique (hnames : (params.map Parameter.name).Nodup) (hparam : params[i]? = some param)
    (hother : params[j]? = some other) (hsame : param.name = other.name) : i = j := by
  have hi : i < (params.map Parameter.name).length := by
    rw [List.length_map]
    exact (List.getElem?_eq_some_iff.1 hparam).1
  apply (List.getElem?_inj hi hnames).1
  rw [List.getElem?_map, List.getElem?_map, hparam, hother, Option.map_some, Option.map_some, hsame]

theorem Places.given_unique {u v : Text} (h : Places params args m) (hu : Given args m i name u)
    (hv : Given args m i name v) : u = v := by
  unfold Given at hu hv
  split at hu
  case isTrue hi =>
    rw [if_pos hi, hu] at hv
    exact Option.some.inj hv
  case isFalse hi =>
    rw [if_neg hi] at hv
    have hentry := List.inj_on_of_nodup_map h.distinct hu hv rfl
    exact congrArg Prod.snd hentry

theorem Places.gets_unique {u v : Text} (h : Places params args m) (hu : Gets args m i param u)
    (hv : Gets args m i param v) : u = v := by
  have hnone (value : Text) (hgiven : Given args m i param.name value) (hi : m ≤ i)
      (hmissing : param.name ∉ (keywords args).map Prod.fst) : False := by
    rw [Given, if_neg (by omega)] at hgiven
    exact hmissing (List.mem_map_of_mem hgiven)
  rcases hu with hu | ⟨hi, hmissing, hu⟩
  · rcases hv with hv | ⟨hi, hmissing, -⟩
    · exact h.given_unique hu hv
    · exact absurd hmissing fun hmissing => hnone u hu hi hmissing
  · rcases hv with hv | ⟨-, -, hv⟩
    · exact absurd hmissing fun hmissing => hnone v hv hi hmissing
    · exact Option.some.inj (hu.symm.trans hv)

/-! ### One argument -/

/-- A parameter whose slot is free has no argument so far. -/
theorem Filled.not_given (h : Filled params done m slots) (hparam : params[i]? = some param)
    (hfree : slots[i]?.join = none) (value : Text) : ¬ Given done m i param.name value := by
  intro hgiven
  rw [← h.slot_iff i param value hparam] at hgiven
  rw [hgiven] at hfree
  cases hfree

/-- It is behind the arguments by position, and there is no keyword for it. -/
theorem Filled.named_of_free (h : Filled params done m slots) (hparam : params[i]? = some param)
    (hfree : slots[i]?.join = none) : m ≤ i ∧ param.name ∉ (keywords done).map Prod.fst := by
  have hle : m ≤ i := by
    by_contra hi
    have hdone : i < done.length := Nat.lt_of_lt_of_le (by omega) h.le_args
    apply h.not_given hparam hfree done[i]
    rw [Given, if_pos (by omega), List.getElem?_eq_getElem hdone]
  refine ⟨hle, fun hmem => ?_⟩
  obtain ⟨⟨name, v⟩, hentry, hname⟩ := List.mem_map.1 hmem
  apply h.not_given hparam hfree v
  rw [Given, if_neg (by omega), ← hname]
  exact hentry

/-- One more argument is placed, by the keyword of a parameter that has none. -/
theorem Places.keyword (h : Places params done m) (harg : keyword? arg = some (param.name, value))
    (hparam : params[i]? = some param) (hle : m ≤ i) (hnew : param.name ∉ (keywords done).map Prod.fst) :
    Places params (done ++ [arg]) m := by
  refine ⟨h.le_params, ?_, ?_, ?_, ?_⟩
  · rw [List.length_append]
    exact Nat.le_add_right_of_le h.le_args
  · intro j arg' harg'
    rw [List.getElem?_append] at harg'
    split at harg'
    case isTrue => exact h.positional_iff j arg' harg'
    case isFalse hj =>
      obtain rfl : arg' = arg := List.mem_singleton.1 (List.mem_of_getElem? harg')
      have hm := h.le_args
      simp only [harg, reduceCtorEq, false_iff]
      omega
  · rw [keywords_append, keywords_of_some harg, List.map_append, List.nodup_append]
    refine ⟨h.distinct, List.nodup_singleton _, ?_⟩
    rintro name hname _ hlast rfl
    obtain rfl := List.mem_singleton.1 hlast
    exact hnew hname
  · intro name hmem
    rw [keywords_append, keywords_of_some harg, List.map_append, List.mem_append] at hmem
    rcases hmem with hmem | hmem
    · exact h.named name hmem
    · obtain rfl := List.mem_singleton.1 hmem
      exact ⟨i, param, hle, hparam, rfl⟩

/-- A keyword argument for a parameter whose slot is free. -/
theorem Filled.keyword (hnames : (params.map Parameter.name).Nodup) (h : Filled params done m slots)
    (harg : keyword? arg = some (name, value)) (hparam : params[i]? = some param)
    (hname : param.name = name) (hfree : slots[i]?.join = none) :
    Filled params (done ++ [arg]) m (slots.set i (some value)) := by
  subst hname
  have hlt : i < params.length := (List.getElem?_eq_some_iff.1 hparam).1
  obtain ⟨hle, hnew⟩ := h.named_of_free hparam hfree
  refine ⟨h.toPlaces.keyword harg hparam hle hnew, by rw [List.length_set, h.length_eq], ?_⟩
  intro j other v hother
  by_cases hij : i = j
  · subst hij
    obtain rfl : param = other := Option.some.inj (hparam.symm.trans hother)
    rw [List.getElem?_set_self (by rw [h.length_eq]; exact hlt), Given, if_neg (by omega),
      keywords_append, keywords_of_some harg, List.mem_append, List.mem_singleton]
    constructor
    · intro hv
      cases hv
      exact .inr rfl
    · rintro (hmem | heq)
      · exact absurd (List.mem_map_of_mem hmem) hnew
      · cases heq
        rfl
  · rw [List.getElem?_set_ne hij, h.slot_iff j other v hother, Given, Given]
    split
    case isTrue hj => rw [List.getElem?_append_left (Nat.lt_of_lt_of_le hj h.le_args)]
    case isFalse =>
      rw [keywords_append, keywords_of_some harg, List.mem_append, List.mem_singleton, iff_self_or]
      intro heq
      exact absurd (position_unique hnames hparam hother (congrArg Prod.fst heq).symm) hij

/-- A positional argument, as long as there was no other and a parameter is left. -/
theorem Filled.position (h : Filled params done done.length slots) (harg : keyword? arg = none)
    (hlt : done.length < params.length) :
    Filled params (done ++ [arg]) (done.length + 1) (slots.set done.length (some arg)) := by
  have hnone : keywords (done ++ [arg]) = [] := by
    rw [keywords, List.filterMap_eq_nil_iff]
    intro arg' hmem
    rcases List.mem_append.1 hmem with hmem | hmem
    · obtain ⟨i, hi⟩ := List.mem_iff_getElem?.1 hmem
      exact (h.positional_iff i arg' hi).2 (List.getElem?_eq_some_iff.1 hi).1
    · rwa [List.mem_singleton.1 hmem]
  refine ⟨⟨hlt, by simp, ?_, by simp [hnone], by simp [hnone]⟩, by rw [List.length_set, h.length_eq], ?_⟩
  · intro i arg' hi
    have hbound : i < (done ++ [arg]).length := (List.getElem?_eq_some_iff.1 hi).1
    rw [List.length_append, List.length_singleton] at hbound
    simp only [hbound, iff_true]
    have hmem : arg' ∈ done ++ [arg] := List.mem_of_getElem? hi
    exact List.filterMap_eq_nil_iff.1 hnone arg' hmem
  · intro i param v hparam
    have hi : i < params.length := (List.getElem?_eq_some_iff.1 hparam).1
    by_cases hdone : done.length = i
    · subst hdone
      rw [List.getElem?_set_self (by rw [h.length_eq]; exact hlt), Given, if_pos (Nat.lt_succ_self _),
        List.getElem?_concat_length, Option.some_inj]
    · rw [List.getElem?_set_ne hdone, h.slot_iff i param v hparam, Given, Given, hnone]
      by_cases hlt' : i < done.length
      · rw [if_pos hlt', if_pos (by omega), List.getElem?_append_left hlt']
      · have hdone' : keywords done = [] := by
          rw [keywords_append] at hnone
          exact (List.append_eq_nil_iff.1 hnone).1
        rw [if_neg hlt', if_neg (by omega), hdone']

/-- Where arguments that were placed are followed by more, those placed decide how many are
positional, unless all of them are. -/
theorem Places.eq_of_append (h : Places params done k) (hall : Places params (done ++ rest) m)
    (hk : k < done.length ∨ m ≤ done.length) : m = k := by
  have hsame (i : Nat) (hi : i < done.length) : i < m ↔ i < k := by
    have hget : done[i]? = some done[i] := List.getElem?_eq_getElem hi
    have hget' : (done ++ rest)[i]? = some done[i] := by rw [List.getElem?_append_left hi, hget]
    rw [← hall.positional_iff i _ hget', h.positional_iff i _ hget]
  have hkle := h.le_args
  rcases Nat.lt_trichotomy m k with hlt | heq | hgt
  · have := hsame m (by omega)
    omega
  · exact heq
  · have hkdone : k < done.length := by omega
    have := hsame k hkdone
    omega

/-- A list of arguments is placed in one way. -/
theorem Places.unique (h : Places params args k) (hall : Places params args m) : m = k := by
  have happend : Places params (args ++ []) m := by rwa [List.append_nil]
  exact h.eq_of_append happend (.inr hall.le_args)

/-- A keyword argument that binds names a parameter whose slot is free. -/
theorem Filled.free_of_places (hnames : (params.map Parameter.name).Nodup)
    (h : Filled params done k slots) (harg : keyword? arg = some (name, value))
    (hall : Places params (done ++ arg :: rest) m) :
    ∃ i, params.findIdx? (·.name = name) = some i ∧ slots[i]?.join = none := by
  have hentries : keywords (done ++ arg :: rest) = keywords done ++ (name, value) :: keywords rest := by
    rw [List.append_cons, keywords_append, keywords_append, keywords_of_some harg, List.append_assoc,
      List.singleton_append]
  have hdistinct := hall.distinct
  rw [hentries, List.map_append, List.nodup_append] at hdistinct
  have hm : m = k := by
    apply h.toPlaces.eq_of_append hall
    have hget : (done ++ arg :: rest)[done.length]? = some arg := by simp
    have hnot := hall.positional_iff done.length arg hget
    rw [harg] at hnot
    simp only [reduceCtorEq, false_iff] at hnot
    omega
  subst hm
  obtain ⟨i, param, hi, hparam, hname⟩ := hall.named name (by simp [hentries])
  obtain ⟨hlt, hget⟩ := List.getElem?_eq_some_iff.1 hparam
  refine ⟨i, ?_, ?_⟩
  · rw [List.findIdx?_eq_some_iff_getElem]
    refine ⟨hlt, by simp [hget, hname], ?_⟩
    intro j hj hsame
    have hother : params[j]? = some params[j] := List.getElem?_eq_getElem (by omega)
    have hij := position_unique hnames hparam hother (by rw [hname]; simpa [eq_comm] using hsame)
    omega
  · cases hslot : slots[i]?.join with
    | none => rfl
    | some v =>
      have hgiven := (h.slot_iff i param v hparam).1 (Option.join_eq_some_iff.1 hslot)
      rw [Given, if_neg (by omega), hname] at hgiven
      exact absurd rfl (hdistinct.2.2 name (List.mem_map_of_mem hgiven) name List.mem_cons_self)

/-- A positional argument that binds comes behind positional ones, and a parameter is left. -/
theorem Places.position_of_places (h : Places params done k) (harg : keyword? arg = none)
    (hall : Places params (done ++ arg :: rest) m) : k = done.length ∧ done.length < params.length := by
  have hget : (done ++ arg :: rest)[done.length]? = some arg := by simp
  have hlt : done.length < m := (hall.positional_iff done.length arg hget).1 harg
  refine ⟨?_, Nat.lt_of_lt_of_le hlt hall.le_params⟩
  by_contra hk
  have hle := h.le_args
  have hm := h.eq_of_append hall (.inl (by omega))
  omega

/-! ### All arguments -/

/-- Arguments that are placed fill slots. -/
theorem filled_of_place (hnames : (sig.params.map Parameter.name).Nodup) {given : Nat}
    {slots' : List (Option Text)} (h : Filled sig.params done k slots)
    (hplace : place sig given slots k (decide (k < done.length)) args = .ok slots') :
    ∃ m, Filled sig.params (done ++ args) m slots' := by
  induction args generalizing done k slots with
  | nil =>
    obtain rfl : slots = slots' := by simpa [place] using hplace
    rw [List.append_nil]
    exact ⟨k, h⟩
  | cons arg args ih =>
    rw [List.append_cons]
    rw [place] at hplace
    split at hplace
    case h_1 name value harg =>
      split at hplace
      case h_1 => cases hplace
      case h_2 i hi =>
        split at hplace
        case isTrue => cases hplace
        case isFalse hfree =>
          obtain ⟨hlt, hname, -⟩ := List.findIdx?_eq_some_iff_getElem.1 hi
          have hnext := h.keyword hnames harg (List.getElem?_eq_getElem hlt) (by simpa using hname)
            (by simpa using hfree)
          apply ih hnext
          rwa [decide_eq_true (by simpa using Nat.lt_succ_of_le h.le_args)]
    case h_2 harg =>
      split at hplace
      case isTrue => cases hplace
      case isFalse hk =>
        obtain rfl : k = done.length := by
          have hle := h.le_args
          simp only [decide_eq_true_eq] at hk
          omega
        split at hplace
        case isTrue => cases hplace
        case isFalse hlt =>
          apply ih (h.position harg (by omega))
          rwa [decide_eq_false (by simp)]

/-- Arguments that can be placed are placed. -/
theorem exists_place_of_places (hnames : (sig.params.map Parameter.name).Nodup) (given : Nat)
    (h : Filled sig.params done k slots) (hall : Places sig.params (done ++ args) m) :
    ∃ slots', place sig given slots k (decide (k < done.length)) args = .ok slots' := by
  induction args generalizing done k slots with
  | nil => exact ⟨slots, rfl⟩
  | cons arg args ih =>
    rw [place]
    cases harg : keyword? arg with
    | some entry =>
      obtain ⟨name, value⟩ := entry
      obtain ⟨i, hi, hfree⟩ := h.free_of_places hnames harg hall
      obtain ⟨hlt, hname, -⟩ := List.findIdx?_eq_some_iff_getElem.1 hi
      have hnext := h.keyword hnames harg (List.getElem?_eq_getElem hlt) (by simpa using hname) hfree
      rw [List.append_cons] at hall
      have hrest := ih hnext hall
      rw [decide_eq_true (by simpa using Nat.lt_succ_of_le h.le_args)] at hrest
      simpa [hi, hfree] using hrest
    | none =>
      obtain ⟨rfl, hlt⟩ := h.toPlaces.position_of_places harg hall
      rw [List.append_cons] at hall
      have hrest := ih (h.position harg hlt) hall
      rw [decide_eq_false (by simp)] at hrest
      simpa [Nat.not_le.2 hlt] using hrest

/-- No slot is filled before the first argument. -/
theorem filled_nil (params : List Parameter) : Filled params [] 0 (List.replicate params.length none) := by
  refine ⟨⟨Nat.zero_le _, Nat.le_refl _, by simp, List.nodup_nil, by simp [keywords]⟩, by simp, ?_⟩
  intro i param value hparam
  have hlt := (List.getElem?_eq_some_iff.1 hparam).1
  simp [Given, keywords, hlt]

/-- Filling in the defaults succeeds exactly if each slot has a value or a default. -/
theorem fill_eq_ok_iff {slots : List (Option Text × Parameter)} {values : List Text} :
    fill slots = .ok values ↔
      List.Forall₂ (fun slot value => slot.1.or slot.2.default? = some value) slots values := by
  induction slots generalizing values with
  | nil => simp [fill, eq_comm]
  | cons slot slots ih =>
    obtain ⟨held, param⟩ := slot
    rw [fill]
    cases hslot : held.or param.default? with
    | none =>
      simp only [reduceCtorEq, List.forall₂_cons_left_iff, hslot, false_and, exists_false]
    | some value =>
      dsimp only
      rw [List.forall₂_cons_left_iff]
      constructor
      · intro h
        cases hrest : fill slots with
        | error fault => simp [hrest, Except.map] at h
        | ok values' =>
          obtain rfl : value :: values' = values := by simpa [hrest, Except.map] using h
          exact ⟨value, values', hslot, ih.1 hrest, rfl⟩
      · rintro ⟨v, values', hv, hrest, rfl⟩
        obtain rfl := Option.some.inj (hslot.symm.trans hv)
        rw [ih.2 hrest]
        rfl

/-- A filled slot, or a default behind a free one, is what its parameter gets. -/
theorem Filled.or_eq_some_iff (h : Filled params args m slots) (hparam : params[i]? = some param)
    {slot : Option Text} (hslot : slots[i]? = some slot) :
    slot.or param.default? = some value ↔ Gets args m i param value := by
  have hgiven (v : Text) : slot = some v ↔ Given args m i param.name v := by
    rw [← h.slot_iff i param v hparam, hslot, Option.some_inj]
  cases slot with
  | some u =>
    have hu := (hgiven u).1 rfl
    rw [Option.some_or, Option.some_inj]
    constructor
    · rintro rfl
      exact .inl hu
    · exact h.gets_unique (.inl hu)
  | none =>
    rw [Option.none_or]
    have hnone (v : Text) : ¬ Given args m i param.name v := fun hv => by cases (hgiven v).2 hv
    have hi : m ≤ i := by
      by_contra hi
      have hlt : i < args.length := Nat.lt_of_lt_of_le (Nat.lt_of_not_le hi) h.le_args
      apply hnone args[i]
      rw [Given, if_pos (Nat.lt_of_not_le hi), List.getElem?_eq_getElem hlt]
    have hmissing : param.name ∉ (keywords args).map Prod.fst := by
      intro hmem
      obtain ⟨⟨_, v⟩, hentry, hname⟩ := List.mem_map.1 hmem
      apply hnone v
      rw [Given, if_neg (Nat.not_lt.2 hi), ← hname]
      exact hentry
    constructor
    · intro hdefault
      exact .inr ⟨hi, hmissing, hdefault⟩
    · rintro (hv | ⟨-, -, hdefault⟩)
      · exact absurd hv (hnone value)
      · exact hdefault

/-- Where arguments bind, each parameter gets a value. -/
theorem Binds.exists_gets (h : Binds params args m) (hparam : params[i]? = some param) :
    ∃ value, Gets args m i param value := by
  rcases Nat.lt_or_ge i m with hi | hi
  · have hlt := Nat.lt_of_lt_of_le hi h.le_args
    refine ⟨args[i], .inl ?_⟩
    rw [Given, if_pos hi, List.getElem?_eq_getElem hlt]
  · by_cases hmem : param.name ∈ (keywords args).map Prod.fst
    · obtain ⟨⟨_, value⟩, hentry, hname⟩ := List.mem_map.1 hmem
      refine ⟨value, .inl ?_⟩
      rw [Given, if_neg (Nat.not_lt.2 hi), ← hname]
      exact hentry
    · rcases h.supplied i param hi hparam with hmem' | hdefault
      · exact absurd hmem' hmem
      · obtain ⟨value, hvalue⟩ := Option.isSome_iff_exists.1 hdefault
        exact ⟨value, .inr ⟨hi, hmem, hvalue⟩⟩

theorem Gets.supplied (h : Gets args m i param value) (hi : m ≤ i) :
    param.name ∈ (keywords args).map Prod.fst ∨ param.default?.isSome := by
  rcases h with hgiven | ⟨-, -, hdefault⟩
  · rw [Given, if_neg (Nat.not_lt.2 hi)] at hgiven
    exact .inl (List.mem_map_of_mem hgiven)
  · exact .inr (by rw [hdefault]; rfl)

structure Values (params : List Parameter) (args : List Text) (m : Nat) (values : List Text) : Prop where
  length_eq : values.length = params.length
  gets : ∀ i param, params[i]? = some param → ∃ value, values[i]? = some value ∧ Gets args m i param value

theorem Filled.fill_eq_ok_iff (h : Filled params args m slots) {values : List Text} :
    fill (slots.zip params) = .ok values ↔ Values params args m values := by
  have hzip : (slots.zip params).length = params.length := by
    rw [List.length_zip, h.length_eq, Nat.min_self]
  rw [Signature.fill_eq_ok_iff, List.forall₂_iff_get]
  constructor
  · rintro ⟨hlength, hvalues⟩
    refine ⟨hlength.symm.trans hzip, ?_⟩
    intro i param hparam
    obtain ⟨hlt, rfl⟩ := List.getElem?_eq_some_iff.1 hparam
    have hslot : i < slots.length := h.length_eq.symm ▸ hlt
    have hvalue : i < values.length := hlength ▸ hzip.symm ▸ hlt
    refine ⟨values[i], List.getElem?_eq_getElem hvalue, ?_⟩
    rw [← h.or_eq_some_iff hparam (List.getElem?_eq_getElem hslot)]
    simpa using hvalues i (hzip.symm ▸ hlt) hvalue
  · rintro ⟨hlength, hvalues⟩
    refine ⟨hzip.trans hlength.symm, ?_⟩
    intro i _ hvalue
    have hlt : i < params.length := hlength ▸ hvalue
    have hslot : i < slots.length := h.length_eq.symm ▸ hlt
    obtain ⟨value, hget, hgets⟩ := hvalues i params[i] (List.getElem?_eq_getElem hlt)
    rw [← h.or_eq_some_iff (List.getElem?_eq_getElem hlt) (List.getElem?_eq_getElem hslot)] at hgets
    obtain ⟨_, rfl⟩ := List.getElem?_eq_some_iff.1 hget
    simpa using hgets

theorem Binds.exists_values (h : Binds params args m) : ∃ values, Values params args m values := by
  choose value hvalue using fun i : Fin params.length =>
    h.exists_gets (List.getElem?_eq_getElem i.isLt)
  refine ⟨List.ofFn value, List.length_ofFn, ?_⟩
  intro i param hparam
  obtain ⟨hlt, rfl⟩ := List.getElem?_eq_some_iff.1 hparam
  exact ⟨value ⟨i, hlt⟩, by simp [hlt], hvalue ⟨i, hlt⟩⟩

theorem Values.unique (h : Places params args m) {values values' : List Text}
    (hvalues : Values params args m values) (hvalues' : Values params args m values') :
    values = values' := by
  apply List.ext_getElem (hvalues.length_eq.trans hvalues'.length_eq.symm)
  intro i hi hi'
  have hlt : i < params.length := hvalues.length_eq ▸ hi
  obtain ⟨u, hu, hgets⟩ := hvalues.gets i params[i] (List.getElem?_eq_getElem hlt)
  obtain ⟨v, hv, hgets'⟩ := hvalues'.gets i params[i] (List.getElem?_eq_getElem hlt)
  obtain ⟨_, rfl⟩ := List.getElem?_eq_some_iff.1 hu
  obtain ⟨_, rfl⟩ := List.getElem?_eq_some_iff.1 hv
  exact h.gets_unique hgets hgets'

/-- Binding succeeds exactly if the arguments bind, with the values that the parameters get. -/
theorem bind_eq_ok_iff (hnames : (sig.params.map Parameter.name).Nodup) {values : List Text} :
    sig.bind args = .ok values ↔ ∃ m, Binds sig.params args m ∧ Values sig.params args m values := by
  unfold Signature.bind
  constructor
  · intro h
    cases hplace : sig.place args.length (List.replicate sig.params.length none) 0 false args with
    | error fault => simp [hplace, Bind.bind, Except.bind] at h
    | ok slots =>
      simp only [hplace, Bind.bind, Except.bind] at h
      obtain ⟨m, hfilled⟩ := filled_of_place hnames (filled_nil sig.params) hplace
      have hvalues := hfilled.fill_eq_ok_iff.1 h
      refine ⟨m, ⟨hfilled.toPlaces, ?_⟩, hvalues⟩
      intro i param hi hparam
      obtain ⟨value, -, hgets⟩ := hvalues.gets i param hparam
      exact hgets.supplied hi
  · rintro ⟨m, hbinds, hvalues⟩
    obtain ⟨slots, hplace⟩ := exists_place_of_places hnames args.length (filled_nil sig.params) hbinds.toPlaces
    obtain ⟨k, hfilled⟩ := filled_of_place hnames (filled_nil sig.params) hplace
    obtain rfl : m = k := hfilled.toPlaces.unique hbinds.toPlaces
    have hrun : sig.place args.length (List.replicate sig.params.length none) 0 false args = .ok slots := hplace
    rw [hrun]
    exact hfilled.fill_eq_ok_iff.2 hvalues

/-! ### Order -/

/-- Arguments that differ in the order of those given by keyword. -/
structure Reordered (args args' : List Text) : Prop where
  perm : args.Perm args'
  alike : List.Forall₂ (fun arg arg' => arg = arg' ∨ (keyword? arg).isSome ∧ (keyword? arg').isSome) args args'

theorem Reordered.symm (h : Reordered args args') : Reordered args' args := by
  refine ⟨h.perm.symm, List.Forall₂.flip (h.alike.imp ?_)⟩
  rintro arg arg' (rfl | ⟨harg, harg'⟩)
  · exact .inl rfl
  · exact .inr ⟨harg', harg⟩

theorem Reordered.exists_getElem? (h : Reordered args args') (harg : args[i]? = some arg) :
    ∃ arg', args'[i]? = some arg' ∧ (arg = arg' ∨ (keyword? arg).isSome ∧ (keyword? arg').isSome) := by
  obtain ⟨hlt, rfl⟩ := List.getElem?_eq_some_iff.1 harg
  have hlt' : i < args'.length := h.perm.length_eq ▸ hlt
  exact ⟨args'[i], List.getElem?_eq_getElem hlt', (List.forall₂_iff_get.1 h.alike).2 i hlt hlt'⟩

theorem Reordered.mem_keywords (h : Reordered args args') {entry : Text × Text} :
    entry ∈ keywords args ↔ entry ∈ keywords args' := (h.perm.filterMap keyword?).mem_iff

theorem Reordered.mem_names (h : Reordered args args') :
    name ∈ (keywords args).map Prod.fst ↔ name ∈ (keywords args').map Prod.fst :=
  ((h.perm.filterMap keyword?).map Prod.fst).mem_iff

theorem Reordered.binds (h : Reordered args args') (hbinds : Binds params args m) : Binds params args' m := by
  refine ⟨⟨hbinds.le_params, h.perm.length_eq ▸ hbinds.le_args, ?_, ?_, ?_⟩, ?_⟩
  · intro i arg' harg'
    obtain ⟨arg, harg, halike⟩ := h.symm.exists_getElem? harg'
    rw [← hbinds.positional_iff i arg harg]
    rcases halike with rfl | ⟨hsome', hsome⟩
    · rfl
    · rw [← Option.not_isSome_iff_eq_none, ← Option.not_isSome_iff_eq_none, hsome, hsome']
  · exact ((h.perm.filterMap keyword?).map Prod.fst).nodup_iff.1 hbinds.distinct
  · intro name hname
    exact hbinds.named name (h.mem_names.2 hname)
  · intro i param hi hparam
    rw [← h.mem_names]
    exact hbinds.supplied i param hi hparam

theorem Reordered.given (h : Reordered args args') (hplaces : Places params args m)
    (hgiven : Given args m i name value) : Given args' m i name value := by
  unfold Given at hgiven ⊢
  split
  case isTrue hi =>
    rw [if_pos hi] at hgiven
    obtain ⟨arg', harg', halike⟩ := h.exists_getElem? hgiven
    have hnone := (hplaces.positional_iff i value hgiven).2 hi
    rcases halike with rfl | ⟨hsome, -⟩
    · exact harg'
    · rw [hnone] at hsome
      cases hsome
  case isFalse hi =>
    rw [if_neg hi] at hgiven
    exact h.mem_keywords.1 hgiven

theorem Reordered.values (h : Reordered args args') (hplaces : Places params args m) {values : List Text}
    (hvalues : Values params args m values) : Values params args' m values := by
  refine ⟨hvalues.length_eq, ?_⟩
  intro i param hparam
  obtain ⟨value, hvalue, hgets⟩ := hvalues.gets i param hparam
  refine ⟨value, hvalue, ?_⟩
  rcases hgets with hgiven | ⟨hi, hmissing, hdefault⟩
  · exact .inl (h.given hplaces hgiven)
  · exact .inr ⟨hi, fun hmem => hmissing (h.mem_names.2 hmem), hdefault⟩

theorem Reordered.bind_eq_ok (h : Reordered args args') (hnames : (sig.params.map Parameter.name).Nodup)
    {values : List Text} (hbind : sig.bind args = .ok values) : sig.bind args' = .ok values := by
  obtain ⟨m, hbinds, hvalues⟩ := (bind_eq_ok_iff hnames).1 hbind
  exact (bind_eq_ok_iff hnames).2 ⟨m, h.binds hbinds, h.values hbinds.toPlaces hvalues⟩

theorem normalize_eq_ok_iff {line : Nat} {values : List Text} :
    sig.normalize args line = .ok values ↔ sig.bind args = .ok values := by
  unfold normalize
  cases sig.bind args with
  | error fault => simp
  | ok values' => simp

/-- Arguments are normalized exactly if they bind to the parameters, and then to the values that
these get, in the order of the parameters and whatever the order of the keyword arguments. Every
fault is reported on the line of the call. -/
theorem normalize_binds {source : Text} (h : parse source = .ok sig) (args : List Text) (line : Nat) :
    ((∃ values, sig.normalize args line = .ok values) ↔ ∃ m, Binds sig.params args m) ∧
    (∀ m values, Binds sig.params args m → sig.normalize args line = .ok values →
      values.length = sig.params.length ∧
      ∀ i param, sig.params[i]? = some param → ∃ value, values[i]? = some value ∧ Gets args m i param value) ∧
    (∀ args' values, Reordered args args' →
      (sig.normalize args line = .ok values ↔ sig.normalize args' line = .ok values)) ∧
    ∀ e, sig.normalize args line = .error e → ∃ fault, e = ⟨line, .binding sig.name fault⟩ := by
  have hnames := nodup_of_parse h
  refine ⟨⟨?_, ?_⟩, ?_, ?_, ?_⟩
  · rintro ⟨values, hvalues⟩
    obtain ⟨m, hbinds, -⟩ := (bind_eq_ok_iff hnames).1 (normalize_eq_ok_iff.1 hvalues)
    exact ⟨m, hbinds⟩
  · rintro ⟨m, hbinds⟩
    obtain ⟨values, hvalues⟩ := hbinds.exists_values
    exact ⟨values, normalize_eq_ok_iff.2 ((bind_eq_ok_iff hnames).2 ⟨m, hbinds, hvalues⟩)⟩
  · intro m values hbinds hnormalize
    obtain ⟨k, hbinds', hvalues⟩ := (bind_eq_ok_iff hnames).1 (normalize_eq_ok_iff.1 hnormalize)
    obtain rfl : m = k := hbinds'.toPlaces.unique hbinds.toPlaces
    exact ⟨hvalues.length_eq, hvalues.gets⟩
  · intro args' values hreordered
    rw [normalize_eq_ok_iff, normalize_eq_ok_iff]
    exact ⟨hreordered.bind_eq_ok hnames, hreordered.symm.bind_eq_ok hnames⟩
  · intro e he
    unfold normalize at he
    split at he
    case h_1 fault _ => exact ⟨fault, (Except.error.inj he).symm⟩
    case h_2 => cases he

/-- A function of three parameters, the last two with defaults. -/
def gradient : Signature :=
  ⟨"foo".toList, [⟨"a".toList, none⟩, ⟨"b".toList, some "2".toList⟩, ⟨"c".toList, some "3".toList⟩]⟩

/-- One argument by position, two by keyword in either order. -/
theorem normalize_binds_keywords :
    let args := ["1".toList, "$c: 9".toList, "$b: 7".toList]
    let args' := ["1".toList, "$b: 7".toList, "$c: 9".toList]
    let values := ["1".toList, "7".toList, "9".toList]
    parse "foo($a, $b: 2, $c: 3)".toList = .ok gradient ∧ Reordered args args' ∧
      gradient.normalize args 4 = .ok values ∧ gradient.normalize args' 4 = .ok values ∧
      ∃ m, Binds gradient.params args m ∧ ∃ value,
        values[2]? = some value ∧ Gets args m 2 ⟨"c".toList, some "3".toList⟩ value := by
  intro args args' values
  have hparse : parse "foo($a, $b: 2, $c: 3)".toList = .ok gradient := by decide +kernel
  have hvalues : gradient.normalize args 4 = .ok values := by decide +kernel
  have hreordered : Reordered args args' := by
    refine ⟨.cons _ (.swap _ _ _), .cons (.inl rfl) (.cons (.inr ?_) (.cons (.inr ?_) .nil))⟩
    · decide +kernel
    · decide +kernel
  obtain ⟨hbinds, hgets, horder, -⟩ := normalize_binds hparse args 4
  obtain ⟨m, hm⟩ := hbinds.1 ⟨values, hvalues⟩
  obtain ⟨-, hvalue⟩ := hgets m values hm hvalues
  exact ⟨hparse, hreordered, hvalues, (horder args' values hreordered).1 hvalues, m, hm, hvalue 2 _ rfl⟩

end Signature

end StylePrep
