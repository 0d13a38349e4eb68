import Mathlib.Data.List.Chain
import StylePrep.Proofs.Mirror

/-!
# A scan cuts its text

What a scan yields are directives that lie one behind the other, from the first character
of the text on: none is empty, no two plain runs stand side by side, and together they are
the text, or a front part of it if an error ends the scan. The places of a directive are
exact. Its offset counts the bytes in front of it, its line the line feeds, and its column
the characters behind the last of these.

That directives are placed one behind the other is known already (`scanFrom_cover`). Here
each is measured as well: it ends where its text does (`scanFrom_measured`). So every place
is the start of the text, moved over a front part of it.
-/

namespace StylePrep

open Text

namespace Location

/-- The place behind `front` in a text whose lines are numbered from `first`. -/
structure Behind (first : Nat) (front : Text) (l : Location) : Prop where
  offset : l.offset = front.utf8Size
  line : l.line = first + front.newlines
  column : l.column = 1 + (front.reverse.takeWhile (· != '\n')).length

theorem behind_advance (first : Nat) (front : Text) : Behind first front ((start first).advance front) where
  offset := by simp [start]
  line := by simp [start]
  column := by
    rw [@column_advance (start first) [] rfl, lineAfter_eq, List.length_reverse, Nat.add_comm]

end Location

theorem Text.length_utf8 (t : Text) : t.utf8.length = t.utf8Size := by
  induction t with
  | nil => rfl
  | cons c t ih =>
    rw [utf8, List.flatMap_cons, List.length_append, String.length_utf8EncodeChar, utf8Size, ← ih]
    rfl

namespace Scan

open Directive

namespace Outcome

/-- What a scan yields one after another: the directives, and then the error. -/
def items (o : Outcome) : List (Except ScanError Directive) :=
  o.directives.map .ok ++ o.error?.toList.map .error

theorem error_not_mem_ok {e : ScanError} (ds : List Directive) :
    (.error e : Except ScanError Directive) ∉ ds.map .ok := by
  simp

/-- An error is the last item, and the only one. -/
theorem items_error {o : Outcome} {xs ys : List (Except ScanError Directive)} {e : ScanError}
    (h : o.items = xs ++ .error e :: ys) : ys = [] ∧ ∀ e', .error e' ∉ xs := by
  unfold items at h
  cases herror : o.error? with
  | none =>
    rw [herror, Option.toList_none, List.map_nil, List.append_nil] at h
    exact absurd (h ▸ by simp) (error_not_mem_ok (e := e) o.directives)
  | some e₀ =>
    rw [herror, Option.toList_some, List.map_singleton] at h
    rcases List.eq_nil_or_concat ys with rfl | ⟨zs, z, rfl⟩
    · obtain ⟨hxs, -⟩ := List.append_inj' h rfl
      exact ⟨rfl, fun e' => hxs ▸ error_not_mem_ok o.directives⟩
    · rw [List.concat_eq_append, ← List.cons_append, ← List.append_assoc] at h
      obtain ⟨hxs, -⟩ := List.append_inj' h rfl
      exact absurd (hxs ▸ by simp) (error_not_mem_ok (e := e) o.directives)

end Outcome

/-- A directive ends where its text does, and its text is not empty. -/
structure Measured (d : Directive) : Prop where
  raw_ne_nil : d.raw ≠ []
  stop : d.span.stop = d.span.start.advance d.raw

/-- Two directives of which one is no plain run. -/
def Apart (d e : Directive) : Prop := ¬ (d.kind = .plain ∧ e.kind = .plain)

variable {functions : FunctionTable}

theorem Run.measured_flush (run : Run) : ∀ d ∈ run.flush, Measured d := by
  intro d hd
  unfold Run.flush at hd
  split at hd
  · cases hd
  case isFalse htext =>
    obtain rfl := List.mem_singleton.1 hd
    exact ⟨htext, rfl⟩

theorem Run.apart_flush (run : Run) : run.flush.IsChain Apart := by
  unfold Run.flush
  split
  · exact .nil
  · exact .singleton _

theorem measured_complete (cur : Cursor) (run : Run) (c : Char) (found : Found) :
    ∀ d ∈ complete cur run c found, Measured d := by
  intro d hd
  rcases List.mem_append.1 hd with hd | hd
  · exact Run.measured_flush _ d hd
  · obtain rfl := List.mem_singleton.1 hd
    exact ⟨by simp, rfl⟩

/-- Behind a directive anything can follow, and a run stands only in front of it. -/
theorem apart_complete_append (cur : Cursor) (run : Run) (c : Char) {found : Found}
    (hkind : found.kind ≠ .plain) {ds : List Directive} (hds : ds.IsChain Apart) :
    (complete cur run c found ++ ds).IsChain Apart := by
  obtain ⟨u, indent, span, -, hcomplete, -⟩ := complete_eq cur run c found
  rw [hcomplete, List.append_assoc]
  refine List.isChain_append.2 ⟨Run.apart_flush _, List.isChain_cons.2 ⟨?_, hds⟩, ?_⟩
  · exact fun e _ hplain => hkind hplain.1
  · intro d _ e he hplain
    obtain rfl : _ = e := Option.some.inj he
    exact hkind hplain.2

/-- The directives of a scan are measured, and plain runs are as long as possible. -/
theorem scanFrom_measured (cur : Cursor) (run : Run) (t : Text) :
    (∀ d ∈ (scanFrom functions cur run t).directives, Measured d) ∧
      (scanFrom functions cur run t).directives.IsChain Apart := by
  fun_induction scanFrom functions cur run t with
  | case1 cur run => exact ⟨run.measured_flush, run.apart_flush⟩
  | case2 => exact ⟨fun d hd => absurd hd List.not_mem_nil, .nil⟩
  | case3 cur run c t found h next ih =>
    obtain ⟨-, rest, -, hform⟩ := recognize_eq_some_iff.1 h
    refine ⟨fun d hd => ?_, apart_complete_append cur run c hform.kind_ne_plain ih.2⟩
    rcases List.mem_append.1 hd with hd | hd
    · exact measured_complete cur run c found d hd
    · exact ih.1 d hd
  | case4 => exact ⟨fun d hd => absurd hd List.not_mem_nil, .nil⟩
  | case5 cur run c t h tail context hskip ih => exact ih

/-- A text whose lines are numbered from `first` is cut by what a scan yields. -/
structure Cuts (first : Nat) (t : Text) (o : Outcome) : Prop where
  start : ∀ d, o.directives.head? = some d → d.span.start.offset = 0
  contiguous : o.directives.IsChain fun d e => e.span.start = d.span.stop
  raw_ne_nil : ∀ d ∈ o.directives, d.raw ≠ []
  raw_eq : ∀ d ∈ o.directives,
    (t.utf8.drop d.span.start.offset).take (d.span.stop.offset - d.span.start.offset) = d.raw.utf8
  isPrefix : texts o.directives <+: t
  whole : o.error? = none → texts o.directives = t
  apart : o.directives.IsChain Apart
  error : ∀ xs e ys, o.items = xs ++ .error e :: ys → ys = [] ∧ ∀ e', .error e' ∉ xs
  located : ∀ d ∈ o.directives, ∀ l ∈ [d.span.start, d.span.stop],
    ∃ front, front <+: t ∧ l.Behind first front

/-- A directive starts behind the directives in front of it, and ends behind its own text. -/
theorem span_of_placed {first : Nat} {ds ds' : List Directive} {d : Directive}
    (h : Placed (.start first) (ds ++ d :: ds')) (hd : Measured d) :
    d.span.start = (Location.start first).advance (texts ds) ∧
      d.span.stop = (Location.start first).advance (texts ds ++ d.raw) := by
  obtain ⟨-, hstart, -⟩ := placed_append.1 h
  exact ⟨hstart, by rw [hd.stop, hstart, Location.advance_append]⟩

/-- Each directive starts where the one before it ends. -/
theorem contiguous_of_placed {place : Location} {ds : List Directive} (h : Placed place ds)
    (hds : ∀ d ∈ ds, Measured d) : ds.IsChain fun d e => e.span.start = d.span.stop := by
  induction ds generalizing place with
  | nil => exact .nil
  | cons d ds ih =>
    refine List.isChain_cons.2 ⟨?_, ih h.2 fun e he => hds e (List.mem_cons_of_mem _ he)⟩
    intro e he
    obtain ⟨ds, rfl⟩ := List.head?_eq_some_iff.1 he
    rw [h.2.1, (hds d List.mem_cons_self).stop, h.1]

/-- Whatever is scanned, in whatever mode and with whatever functions, the scan cuts the
text. -/
theorem scanText_cuts (functions : FunctionTable) (mode : Mode) (first : Nat) (t : Text) :
    Cuts first t (scanText functions mode first t) := by
  set cur := Cursor.start mode first
  obtain ⟨hplaced, -, rest, hrest, hwhole⟩ := @scanFrom_cover functions cur (.fresh cur) t rfl
  obtain ⟨hmeasured, hapart⟩ := @scanFrom_measured functions cur (.fresh cur) t
  change Cuts first t (scanFrom functions cur (.fresh cur) t)
  change t = _ at hrest
  set o := scanFrom functions cur (.fresh cur) t
  have hspan {d : Directive} (hd : d ∈ o.directives) : ∃ front back, t = front ++ d.raw ++ back ∧
      d.span.start = (Location.start first).advance front ∧
      d.span.stop = (Location.start first).advance (front ++ d.raw) := by
    obtain ⟨ds, ds', hds⟩ := List.append_of_mem hd
    rw [hds] at hplaced
    refine ⟨texts ds, texts ds' ++ rest, ?_, span_of_placed hplaced (hmeasured d hd)⟩
    rw [hrest, hds]
    simp
  refine ⟨?_, contiguous_of_placed hplaced hmeasured, fun d hd => (hmeasured d hd).raw_ne_nil, ?_,
    ⟨rest, hrest.symm⟩, ?_, hapart, fun xs e ys => Outcome.items_error, ?_⟩
  · intro d hd
    obtain ⟨ds, hds⟩ := List.head?_eq_some_iff.1 hd
    rw [hds] at hplaced
    rw [hplaced.1]
    rfl
  · intro d hd
    obtain ⟨front, back, ht, hstart, hstop⟩ := hspan hd
    have hlength : ((Location.start first).advance (front ++ d.raw)).offset -
        ((Location.start first).advance front).offset = d.raw.utf8.length := by
      rw [length_utf8]
      simp
    rw [hstart, hstop, hlength, ht, utf8_append, utf8_append, List.append_assoc,
      List.drop_left' (by simp [length_utf8, Location.start]), List.take_left]
  · intro herror
    rw [hwhole herror, List.append_nil] at hrest
    exact hrest.symm
  · intro d hd l hl
    obtain ⟨front, back, ht, hstart, hstop⟩ := hspan hd
    rcases List.mem_cons.1 hl with rfl | hl
    · exact ⟨front, ⟨d.raw ++ back, by rw [ht, List.append_assoc]⟩, hstart ▸ Location.behind_advance first front⟩
    · obtain rfl := List.mem_singleton.1 hl
      exact ⟨front ++ d.raw, ⟨back, ht.symm⟩, hstop ▸ Location.behind_advance first _⟩

end Scan

end StylePrep
