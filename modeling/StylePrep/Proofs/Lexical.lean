import Mathlib.Data.List.Infix
import StylePrep.Proofs.Blocks
import StylePrep.Proofs.Includable
import StylePrep.Proofs.Mirror
import StylePrep.Proofs.Sample

/-!
# Lexical scoping

The table of variables holds only the blocks that are open, and moves from directive to
directive by comparing block numbers. What a directive sees in it can be said without the
table. An assignment writes to the scope it stands in, or to the root with `!global`; with
`!default` it writes nothing where the variable is visible. A variable has the value that
was written last to the longest scope around the directive that has one (`visible?`).

The table reflects the writes: each of its scopes has exactly the values that were written
last to that scope (`Reflects`). An assignment keeps this up (`Reflects.assign`), and so
does a move, because a block that is entered is new and nothing was written to it before
(`Reflects.sync`).
-/

namespace StylePrep

/-- A value assigned to a variable by a directive with the scope `path`. -/
structure Assignment where
  path : List Nat
  name : Text
  value : Value
  flags : AssignFlags
  deriving DecidableEq, Repr

/-- A value written to a variable of one scope. -/
structure Write where
  path : List Nat
  name : Text
  value : Value
  deriving DecidableEq, Repr

namespace Lexical

/-- The value that was written last to a variable of exactly this scope. -/
def last? (ws : List Write) (path : List Nat) (name : Text) : Option Value :=
  (ws.reverse.find? fun w => w.path = path ∧ w.name = name).map (·.value)

/-- The value of a variable as it is seen in a scope: the last one of the longest scope
around that has one. -/
def visible? (ws : List Write) (path : List Nat) (name : Text) : Option Value :=
  path.inits.reverse.findSome? (last? ws · name)

/-- What an assignment writes behind other writes. -/
def write? (ws : List Write) (a : Assignment) : Option Write :=
  if a.flags.isDefault ∧ (visible? ws a.path a.name).isSome then none
  else some ⟨if a.flags.isGlobal then [] else a.path, a.name, a.value⟩

def effective (ws : List Write) : List Assignment → List Write
  | [] => ws
  | a :: as => effective (ws ++ (write? ws a).toList) as

theorem effective_append (ws : List Write) (as bs : List Assignment) :
    effective ws (as ++ bs) = effective (effective ws as) bs := by
  induction as generalizing ws with
  | nil => rfl
  | cons a as ih => exact ih _

/-- Assignments write to the scopes they stand in, or to the root. -/
theorem effective_below {ws : List Write} {as : List Assignment} {n : Nat}
    (hws : ∀ w ∈ ws, ∀ x ∈ w.path, x < n) (has : ∀ a ∈ as, ∀ x ∈ a.path, x < n) :
    ∀ w ∈ effective ws as, ∀ x ∈ w.path, x < n := by
  induction as generalizing ws with
  | nil => exact hws
  | cons a as ih =>
    refine ih (fun w hw => ?_) fun b hb => has b (List.mem_cons_of_mem _ hb)
    rcases List.mem_append.1 hw with hw | hw
    · exact hws w hw
    · have ha := has a List.mem_cons_self
      rw [Option.mem_toList, write?] at hw
      grind

theorem last?_concat (ws : List Write) (w : Write) (path : List Nat) (name : Text) :
    last? (ws ++ [w]) path name =
      if w.path = path ∧ w.name = name then some w.value else last? ws path name := by
  unfold last?
  rw [List.reverse_concat, List.find?_cons]
  split <;> simp_all

/-- Nothing was written to a scope that no write names. -/
theorem last?_eq_none {ws : List Write} {path : List Nat} (h : ∀ w ∈ ws, w.path ≠ path) (name : Text) :
    last? ws path name = none := by
  rw [last?, Option.map_eq_none_iff, List.find?_eq_none]
  intro w hw
  simp [h w (List.mem_reverse.1 hw)]

end Lexical

/-! ### The table and the writes -/

namespace VariableTable

open Lexical

def scopes (table : VariableTable) : List Variables := table.root :: table.blocks.map (·.vars)

theorem get?_eq_findSome? (table : VariableTable) (name : Text) :
    table.get? name = table.scopes.reverse.findSome? (·.lookup name) := by
  simp [get?, scopes, List.findSome?_append, List.findSome?_map, ← List.map_reverse, Function.comp_def]

theorem scopes_bare (table : VariableTable) : table.bare.scopes = table.scopes := by
  simp [scopes, bare, bareBlock, Function.comp_def]

theorem scopes_shift (table : VariableTable) (low depth : Nat) :
    (table.shift low depth).scopes =
      table.scopes.take (low + 1) ++ List.replicate (depth - low) [] := by
  simp [scopes, shift, bareBlock]

theorem labels_assignInnermost (table : VariableTable) (name : Text) (value : Value) :
    (table.assignInnermost name value).labels = table.labels := by
  simpa [assign] using labels_assign table name value {}

theorem scopes_assignInnermost (table : VariableTable) (name : Text) (value : Value) :
    (table.assignInnermost name value).scopes =
      table.scopes.modify table.innermost ((name, value) :: ·) := by
  unfold assignInnermost scopes innermost
  rcases List.eq_nil_or_concat table.blocks with h | ⟨blocks, b, h⟩
  · simp [h]
  · simp [h, List.modify_eq_take_drop]

/-- The table at a point of a file with the scope `path`, where `ws` have been written. -/
structure Reflects (file : FileId) (ws : List Write) (path : List Nat) (table : VariableTable) :
    Prop where
  labels : table.labels = path.map (file, ·)
  scopes : ∀ name, table.scopes.map (·.lookup name) = path.inits.map (last? ws · name)

namespace Reflects

variable {file : FileId} {ws : List Write} {p q : List Nat} {table : VariableTable}

theorem empty (file : FileId) : Reflects file [] [] VariableTable.empty where
  labels := rfl
  scopes _ := rfl

theorem length_scopes (h : Reflects file ws p table) : table.scopes.length = p.length + 1 := by
  simpa using congrArg List.length (h.scopes [])

/-- What the table finds is what is seen. -/
theorem get?_eq (h : Reflects file ws p table) (name : Text) : table.get? name = visible? ws p name := by
  have hmap := congrArg (fun l => l.reverse.findSome? id) (h.scopes name)
  simp only [← List.map_reverse, List.findSome?_map] at hmap
  rw [get?_eq_findSome?]
  exact hmap

/-- A write to the scope of some depth. -/
theorem write (h : Reflects file ws p table) {table' : VariableTable} {i : Nat} (hi : i ≤ p.length)
    {name : Text} {value : Value} (hlabels : table'.labels = table.labels)
    (hscopes : table'.scopes = table.scopes.modify i ((name, value) :: ·)) :
    Reflects file (ws ++ [⟨p.take i, name, value⟩]) p table' where
  labels := hlabels.trans h.labels
  scopes x := by
    have hlength := h.length_scopes
    refine List.ext_getElem (by simp [hscopes, hlength]) fun j hj hj' => ?_
    have hjlen : j ≤ p.length := by simpa [Nat.lt_succ_iff] using hj'
    have hold : table.scopes[j].lookup x = last? ws (p.take j) x := by
      have hget := congrArg (·[j]?) (h.scopes x)
      simpa [List.getElem?_eq_getElem, hlength, Nat.lt_succ_of_le hjlen] using hget
    have hpath : p.take i = p.take j ↔ i = j := by
      refine ⟨fun heq => ?_, fun heq => by rw [heq]⟩
      have hlen := congrArg List.length heq
      simpa [Nat.min_eq_left hi, Nat.min_eq_left hjlen] using hlen
    simp only [List.getElem_map, List.getElem_inits, last?_concat, hpath, hscopes,
      List.getElem_modify, ← hold]
    by_cases hij : i = j
    · by_cases hx : name = x
      · simp [hij, hx]
      · have hx' : (x == name) = false := by simpa using Ne.symm hx
        simp [hij, hx, List.lookup_cons, hx']
    · simp [hij]

/-- An assignment writes what it writes to the table. -/
theorem assign (h : Reflects file ws p table) {a : Assignment} (ha : a.path = p) :
    Reflects file (ws ++ (write? ws a).toList) p (table.assign a.name a.value a.flags) := by
  unfold VariableTable.assign write?
  rw [h.get?_eq, ha]
  split
  · simpa using h
  split
  · exact h.write (Nat.zero_le _) rfl rfl
  · have hdepth : table.innermost = p.length := by
      rw [← length_labels, h.labels, List.length_map]
    have hinner := h.write (Nat.le_refl p.length) (labels_assignInnermost table a.name a.value)
      (hdepth ▸ scopes_assignInnermost table a.name a.value)
    simpa using hinner

/-- A block that is entered has no variables yet. -/
theorem sync (h : Reflects file ws p table) {n : Nat} (hmoves : Moves n p q)
    (hold : ∀ w ∈ ws, ∀ x ∈ w.path, x < n) : Reflects file ws q (table.sync 0 file q) := by
  have hlabels : table.labels = [] ++ p.map (file, ·) ++ [] := by simpa using h.labels
  obtain ⟨hbare, hsynced⟩ := sync_eq List.length_nil hlabels (by simp) q
  refine ⟨by simpa using hsynced, fun name => ?_⟩
  set k := common p q
  have hk : k ≤ q.length := common_le_right p q
  have hscopes : (table.sync 0 file q).scopes =
      table.scopes.take (k + 1) ++ List.replicate (q.length - k) [] := by
    rw [← scopes_bare, hbare, scopes_shift, scopes_bare, Nat.zero_add, Nat.zero_add]
  have hkept : (table.scopes.take (k + 1)).map (·.lookup name) =
      (q.take k).inits.map (last? ws · name) := by
    rw [List.map_take, h.scopes, ← List.map_take, ← List.take_inits, take_common p q]
  -- A longer scope with a write would be one that both points are in.
  have hnew : ∀ r ∈ (q.drop k).inits.tail, last? ws (q.take k ++ r) name = none := by
    intro r hr
    refine last?_eq_none (fun w hw hpath => ?_) name
    have hr' : r <+: q.drop k ∧ r ≠ [] := by
      cases hdrop : q.drop k with
      | nil => simp [hdrop] at hr
      | cons x rest =>
        rw [hdrop, List.inits_cons, List.tail_cons, List.mem_map] at hr
        obtain ⟨u, hu, rfl⟩ := hr
        exact ⟨List.cons_prefix_cons.2 ⟨rfl, (List.mem_inits u rest).1 hu⟩, List.cons_ne_nil x u⟩
    have hprefix : q.take k ++ r <+: q := by
      conv_rhs => rw [← List.take_append_drop k q]
      exact (List.prefix_append_right_inj _).2 hr'.1
    have hshort := length_le_common (hmoves.isPrefix hprefix (hpath ▸ hold w hw)) hprefix
    have hlong := List.length_pos_iff.2 hr'.2
    rw [List.length_append, List.length_take, Nat.min_eq_left hk] at hshort
    omega
  calc (table.sync 0 file q).scopes.map (·.lookup name)
    _ = (q.take k).inits.map (last? ws · name) ++ List.replicate (q.length - k) none := by
      rw [hscopes, List.map_append, hkept, List.map_replicate]
      rfl
    _ = (q.take k).inits.map (last? ws · name) ++
        ((q.drop k).inits.tail.map (q.take k ++ ·)).map (last? ws · name) := by
      rw [List.map_map, (List.eq_replicate_iff.2 ⟨?_, ?_⟩ : (q.drop k).inits.tail.map _ = _)]
      · simp
      · intro x hx
        obtain ⟨r, hr, rfl⟩ := List.mem_map.1 hx
        exact hnew r hr
    _ = q.inits.map (last? ws · name) := by
      rw [← List.map_append, ← List.inits_append, List.take_append_drop]

end Reflects

end VariableTable

/-! ### The assignments of a run -/

namespace Scan

/-- Only a sprite map is bound to a variable. -/
theorem eq_spriteMap_of_mem_scan {functions : FunctionTable} {t : Text} {d : Directive}
    (hd : d ∈ (scan functions t).directives) {function : SpriteFunction} {args : List Text}
    {binding : Binding} (hkind : d.kind = .sprite function args (some binding)) :
    function = .spriteMap := by
  rcases form_of_mem_scanFrom hd with hplain | ⟨c, found, rest, indent, hform, hfound, -⟩
  · cases hplain.symm.trans hkind
  · cases hform with
    | imports => cases hfound.symm.trans hkind
    | assign =>
      have h := hfound.symm.trans hkind
      simp only [assignment] at h
      split at h
      · split at h <;> cases h
        rfl
      · cases h
    | call _ _ _ _ hcall =>
      obtain rfl := hfound.symm.trans hkind
      unfold callKind? at hcall
      split at hcall
      · cases hcall
      · cases hcall
      · split at hcall <;> cases hcall

end Scan

def Assignment.site (a : Assignment) : List Nat × Text × AssignFlags := (a.path, a.name, a.flags)

/-- The scope, the variable and the flags of a directive that assigns. -/
def Directive.site? (d : Directive) : Option (List Nat × Text × AssignFlags) :=
  match d.kind with
  | .assign name _ _ _ flags => some (d.scope, name, flags)
  | .sprite _ _ (some binding) => some (d.scope, binding.name, binding.flags)
  | _ => none

namespace Assembly

open Step Lexical VariableTable Scan

variable (options : Options) (loader : Loader) (nested : Importer) (dir : Path)

/-- What a directive assigns, `before` being the text in front of it: the value as it is
put out, or the sprite map. -/
def assigned? (before : Text) (d : Directive) (s : Session) : Option Assignment :=
  match d.kind with
  | .assign name _ value _ flags =>
    match exec (expandValue options value d.line) s with
    | (.ok expanded?, _) => some ⟨d.scope, name, .raw (expanded?.getD value), flags⟩
    | (.error _, _) => none
  | .sprite function args (some binding) =>
    match exec (expandSprite options function args d.line (lineIndent before)) s with
    | (.ok expansion, _) =>
      expansion.sheet?.map fun sheet => ⟨d.scope, binding.name, .sheet sheet, binding.flags⟩
    | (.error _, _) => none
  | _ => none

/-- The session as a directive of the root file sees it. -/
def facing (d : Directive) (s : Session) : Session := { s with vars := s.vars.sync 0 0 d.scope }

/-- The assignments that the directives of a root file make, one after another. -/
def assignments (before : Text) (map : LineMap) : List Directive → Session → List Assignment
  | [], _ => []
  | d :: ds, s =>
    (assigned? options before d (facing d s)).toList ++
      match exec (addDirective options loader nested 0 dir before map d) (facing d s) with
      | (.ok map, s) => assignments (before ++ d.raw) map ds s
      | (.error _, _) => []

variable {options loader nested dir} {file : FileId} {path : Path}

theorem path_of_assigned? {before : Text} {d : Directive} {s : Session} {a : Assignment}
    (h : assigned? options before d s = some a) : a.path = d.scope := by
  unfold assigned? at h
  split at h
  · split at h
    · cases h
      rfl
    · cases h
  · split at h
    · obtain ⟨sheet, -, rfl⟩ := Option.map_eq_some_iff.1 h
      rfl
    · cases h
  · cases h

/-- A directive changes the variables only by what it assigns. -/
theorem vars_of_addDirective {before : Text} {map map' : LineMap} {d : Directive} {s s' : Session}
    (hd : ∀ targets, d.kind ≠ .imports targets)
    (h : Returns (addDirective options loader nested file dir before map d) s map' s') :
    s'.vars = (assigned? options before d s).elim s.vars
      fun a => s.vars.assign a.name a.value a.flags := by
  unfold addDirective at h
  unfold assigned?
  cases hkind : d.kind with
  | plain =>
    rw [hkind] at h
    rw [(returns_pure.1 h).2]
    rfl
  | imports targets => exact absurd hkind (hd targets)
  | assign name lead value tail flags =>
    rw [hkind] at h
    obtain ⟨expanded?, s₁, hvalue, h⟩ := returns_bind.1 h
    have hvars := (expandValue_inWorkspace options value d.line).vars_eq hvalue
    simp only [show exec _ s = _ from hvalue, Option.elim_some, ← hvars]
    cases expanded? with
    | none =>
      obtain ⟨_, s₂, hassign, h⟩ := returns_bind.1 h
      rw [(returns_pure.1 h).2, returns_modifyVars.1 hassign]
      rfl
    | some expanded =>
      obtain ⟨_, s₂, hassign, h⟩ := returns_bind.1 h
      rw [(returns_pure.1 h).2, returns_modifyVars.1 hassign]
      rfl
  | sprite function args binding? =>
    rw [hkind] at h
    obtain ⟨expansion, s₁, hsprite, h⟩ := returns_bind.1 h
    have hvars := (expandSprite_inWorkspace options function args d.line _).vars_eq hsprite
    cases binding? with
    | none =>
      rw [(returns_pure.1 h).2, hvars]
      rfl
    | some binding =>
      simp only [show exec _ s = _ from hsprite, ← hvars]
      dsimp only at h
      cases hsheet : expansion.sheet? with
      | none =>
        rw [hsheet] at h
        rw [(returns_pure.1 h).2]
        rfl
      | some sheet =>
        rw [hsheet] at h
        obtain ⟨_, s₂, hassign, h⟩ := returns_bind.1 h
        rw [(returns_pure.1 h).2, returns_modifyVars.1 hassign]
        rfl
  | custom name args =>
    rw [hkind] at h
    obtain ⟨text, s₁, hcall, h⟩ := returns_bind.1 h
    rw [(returns_pure.1 h).2, (normalizeCall_inWorkspace options.functions name args d.line).vars_eq hcall]
    rfl

/-- A call of `sprite-map` that is expanded makes a sheet. -/
theorem sheet?_of_expandSprite {args : List Text} {line : Nat} {indent : Text} {expansion : Expansion}
    {s s' : Session}
    (h : Returns (expandSprite options .spriteMap args line indent) s expansion s') :
    ∃ sheet, expansion.sheet? = some sheet := by
  obtain ⟨_, s₁, -, h⟩ := returns_bind.1 h
  obtain ⟨w, h, -⟩ := returns_task.1 h
  have hname : SpriteFunction.ofName? SpriteFunction.spriteMap.name = some .spriteMap := by decide
  rw [Expand.expand, hname] at h
  obtain ⟨_, w₁, -, h⟩ := returns_bind.1 h
  obtain ⟨pattern, w₂, -, h⟩ := returns_bind.1 h
  obtain ⟨spacing, w₃, -, h⟩ := returns_bind.1 h
  obtain ⟨sheet, w₄, -, h⟩ := returns_bind.1 h
  exact ⟨sheet, by rw [(returns_pure.1 h).1]⟩

/-- Every directive that is to assign does assign. -/
theorem site_of_addDirective {before : Text} {map map' : LineMap} {d : Directive} {s s' : Session}
    (hd : ∀ function args binding, d.kind = .sprite function args (some binding) →
      function = .spriteMap)
    (h : Returns (addDirective options loader nested file dir before map d) s map' s') :
    (assigned? options before d s).map Assignment.site = d.site? := by
  unfold addDirective at h
  unfold assigned? Directive.site?
  cases hkind : d.kind with
  | plain => rfl
  | imports targets => rfl
  | assign name lead value tail flags =>
    rw [hkind] at h
    obtain ⟨expanded?, s₁, hvalue, -⟩ := returns_bind.1 h
    simp only [show exec _ s = _ from hvalue]
    rfl
  | sprite function args binding? =>
    rw [hkind] at h
    obtain ⟨expansion, s₁, hsprite, -⟩ := returns_bind.1 h
    cases binding? with
    | none => rfl
    | some binding =>
      obtain rfl := hd function args binding hkind
      obtain ⟨sheet, hsheet⟩ := sheet?_of_expandSprite hsprite
      simp only [show exec _ s = _ from hsprite, hsheet]
      rfl
  | custom name args => rfl

/-- One directive: the table goes on reflecting what is written. -/
theorem reflects_of_addDirective {before : Text} {map map' : LineMap} {d : Directive} {s s' : Session}
    {ws : List Write} (hd : ∀ targets, d.kind ≠ .imports targets)
    (hreflects : Reflects file ws d.scope s.vars)
    (h : Returns (addDirective options loader nested file dir before map d) s map' s') :
    Reflects file (effective ws (assigned? options before d s).toList) d.scope s'.vars := by
  rw [vars_of_addDirective hd h]
  cases hassigned : assigned? options before d s with
  | none => exact hreflects
  | some a =>
    have hpath : a.path = d.scope := path_of_assigned? hassigned
    exact hreflects.assign hpath

/-- All directives: the table reflects what they have written, and what follows them
descends from where they end. -/
theorem reflects_of_addDirectives {before : Text} {map map' : LineMap} {ds rest : List Directive}
    {s s' : Session} {ws : List Write} {n : Nat} {p : List Nat}
    (hds : ∀ d ∈ ds, ∀ targets, d.kind ≠ .imports targets) (hreflects : Reflects 0 ws p s.vars)
    (hbelow : ∀ w ∈ ws, ∀ x ∈ w.path, x < n) (hdescends : Descends n p (ds ++ rest))
    (h : Returns (addDirectives options loader nested 0 path dir 0 before map ds) s map' s') :
    ∃ n' p', Reflects 0 (effective ws (assignments options loader nested dir before map ds s)) p'
        s'.vars ∧
      (∀ w ∈ effective ws (assignments options loader nested dir before map ds s),
        ∀ x ∈ w.path, x < n') ∧
      Descends n' p' rest := by
  induction ds generalizing before map s ws n p with
  | nil =>
    obtain ⟨-, rfl⟩ := returns_pure.1 h
    exact ⟨n, p, hreflects, hbelow, hdescends⟩
  | cons d ds ih =>
    obtain ⟨map₁, s₁, hd, hrest⟩ := returns_addDirectives_cons.1 h
    obtain ⟨hmoves, m, hm, hscope, hdescends⟩ := hdescends
    have hfacing : Reflects 0 ws d.scope (facing d s).vars := hreflects.sync hmoves hbelow
    have hstep := reflects_of_addDirective (hds d List.mem_cons_self) hfacing hd
    rw [assignments, show exec _ (facing d s) = _ from hd, effective_append]
    refine ih (fun e he => hds e (List.mem_cons_of_mem _ he)) hstep ?_ hdescends hrest
    refine effective_below (fun w hw x hx => Nat.lt_of_lt_of_le (hbelow w hw x hx) hm) ?_
    intro a ha
    rw [path_of_assigned? (Option.mem_toList.1 ha)]
    exact hscope

theorem site_of_addDirectives {before : Text} {map map' : LineMap} {ds : List Directive}
    {s s' : Session}
    (hds : ∀ d ∈ ds, ∀ function args binding, d.kind = .sprite function args (some binding) →
      function = .spriteMap)
    (h : Returns (addDirectives options loader nested 0 path dir 0 before map ds) s map' s') :
    (assignments options loader nested dir before map ds s).map Assignment.site =
      ds.filterMap Directive.site? := by
  induction ds generalizing before map s with
  | nil => rfl
  | cons d ds ih =>
    obtain ⟨map₁, s₁, hd, hrest⟩ := returns_addDirectives_cons.1 h
    change Returns _ (facing d s) _ _ at hd
    have hsite := site_of_addDirective (hds d List.mem_cons_self) hd
    have hsites := ih (fun e he => hds e (List.mem_cons_of_mem _ he)) hrest
    rw [assignments, show exec _ (facing d s) = _ from hd, List.map_append, hsites,
      List.filterMap_cons, ← hsite]
    cases assigned? options before d (facing d s) <;> rfl

/-- The assignments that the first directives `ds` of a root text make. -/
def rootAssignments (options : Options) (loader : Loader) (path dir : Path) (text : Text)
    (w : Workspace) (ds : List Directive) : List Assignment :=
  assignments options loader (importerAt options loader w.tree.fileCount) dir [] .empty ds
    (start w path text)

/-- What a directive of a sheet without imports finds in the table of variables is what it
sees of the assignments in front of it, which are those of the directives there. -/
theorem assembleRoot_lexical {text : Text} {w w' : Workspace} {c : Compilation}
    {ds ds' : List Directive} {d : Directive}
    (himports : ∀ e ∈ (scan options.functions text).directives, ∀ targets, e.kind ≠ .imports targets)
    (hreturns : Returns (assembleRoot options loader path text dir) w c w')
    (hsplit : (scan options.functions text).directives = ds ++ d :: ds') :
    ∃ map s map' s', Reaches options loader path dir text w ds map s ∧
      Returns (addDirective options loader (importerAt options loader w.tree.fileCount) 0 dir
        (Directive.texts ds) map d) (facing d s) map' s' ∧
      (rootAssignments options loader path dir text w ds).map Assignment.site =
        ds.filterMap Directive.site? ∧
      ∀ name, (facing d s).vars.get? name =
        visible? (effective [] (rootAssignments options loader path dir text w ds)) d.scope name := by
  obtain ⟨s₀, hassemble, -⟩ := returns_assembleRoot.1 hreturns
  rw [assemble_eq] at hassemble
  have hsource : (start w path text).files[0]? = some ⟨path, text, none⟩ := rfl
  obtain ⟨-, hadd⟩ := (returns_assembleFile hsource).1 hassemble
  change Returns (addDirectives options loader _ 0 path dir 0 [] .empty
    (scan options.functions text).directives) _ _ _ at hadd
  rw [hsplit, addDirectives_append] at hadd
  obtain ⟨map, s, hreaches, hadd⟩ := returns_bind.1 hadd
  obtain ⟨map', s', hd, -⟩ := returns_addDirectives_cons.1 hadd
  have hmem : ∀ e ∈ ds, e ∈ (scan options.functions text).directives := by
    intro e he
    rw [hsplit]
    exact List.mem_append_left _ he
  have hdescends := scan_descends options.functions text
  rw [hsplit] at hdescends
  obtain ⟨n, p, hreflects, hbelow, hmoves, -⟩ := reflects_of_addDirectives
    (fun e he => himports e (hmem e he)) (Reflects.empty 0) (by simp) hdescends hreaches
  refine ⟨map, s, map', s', hreaches, hd, ?_, ?_⟩
  · exact site_of_addDirectives (fun e he _ _ _ => eq_spriteMap_of_mem_scan (hmem e he)) hreaches
  · exact (hreflects.sync hmoves hbelow).get?_eq

/-- Two nested blocks with assignments, and a block behind them that refers to one. -/
def blocksText : Text :=
  "$a: x;\nb \x7b $a: y; d \x7b $a: w !global; $c: q !default; \x7d \x7d\n".toList ++
    "g \x7b h: image-url($a); \x7d\n".toList

/-- In a third block, a directive sees what `!global` wrote at the root, and nothing of what
was assigned in the two blocks before. -/
theorem assembleRoot_lexical_blocks :
    ∃ ds d ds' map s,
      (scan Sample.options.functions blocksText).directives = ds ++ d :: ds' ∧ d.scope = [2] ∧
      Reaches Sample.options (Preprocess.loaderFor Sample.options (Sample.tree []) ⟨['/']⟩) ⟨['-']⟩ ⟨['/']⟩
        blocksText (Sample.workspace []) ds map s ∧
      (facing d s).vars.get? ['a'] = some (.raw ['w']) ∧ (facing d s).vars.get? ['c'] = none := by
  set loader := Preprocess.loaderFor Sample.options (Sample.tree []) ⟨['/']⟩
  set ds := (scan Sample.options.functions blocksText).directives.take 8
  have hsplit : (scan Sample.options.functions blocksText).directives = ds ++
      ⟨.sprite .imageUrl [['$', 'a']] none, ⟨⟨64, 3, 8⟩, ⟨77, 3, 21⟩⟩, "image-url($a)".toList, [2]⟩ ::
        (scan Sample.options.functions blocksText).directives.drop 9 := by
    decide +kernel
  have heval : (exec (assembleRoot Sample.options loader ⟨['-']⟩ blocksText ⟨['/']⟩)
      (Sample.workspace [])).1.toOption.map (fun _ => ()) = some () := by
    decide +kernel
  obtain ⟨c, w', hreturns, -⟩ := exists_returns heval
  obtain ⟨map, s, -, -, hreaches, -, -, hget⟩ :=
    assembleRoot_lexical (by decide +kernel) hreturns hsplit
  refine ⟨ds, _, _, map, s, hsplit, rfl, hreaches, (hget _).trans ?_, (hget _).trans ?_⟩
  · decide +kernel
  · decide +kernel

end Assembly

end StylePrep
