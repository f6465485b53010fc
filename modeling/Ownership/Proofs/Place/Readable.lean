import Mathlib.Data.List.Induction
import Std.Data.String.ToInt
import Ownership.Place.Printer
import Ownership.Proofs.Report.Canonical

/-!
# The text of a place can be read back

Fields and indices are written behind a place, dereferences before it, in parentheses if another step
follows. The last character of a text tells what the last step was, and the text before it is the
text of the place without that step, so that a text is read from its end:

* `isIdentifier`, `Place.isSpelled`: the names and indices whose texts can be told apart;
* `Place.shown`: the place less what its text leaves out, a position of an index that is not known;
* `Projection.onto_injective`: the last step is read from the end of a text;
* `Path.wrapped_injective`: so are all of them;
* `Place.render_inj_iff`: places have one text if they are shown alike;
* `render_identifies`: findings about different places are not taken for one another.
-/

namespace Ownership

/-! ## 1. Names -/

/-- A letter; every character beyond ASCII passes for one. -/
def isLetter (c : Char) : Bool := c.isAlpha || 128 ≤ c.toNat

def beginsIdentifier (c : Char) : Bool := isLetter c || c == '_'

def continuesIdentifier (c : Char) : Bool := beginsIdentifier c || c.isDigit

/-- A letter or underscore, followed by letters, digits and underscores. -/
def isIdentifier (s : String) : Bool :=
  match s.toList with
  | [] => false
  | c :: cs => beginsIdentifier c && cs.all continuesIdentifier

theorem continues_of_mem {s : String} (h : isIdentifier s = true) {c : Char} (hc : c ∈ s.toList) :
    continuesIdentifier c = true := by
  unfold isIdentifier at h
  split at h
  · cases h
  · rename_i d ds hs
    rw [Bool.and_eq_true, List.all_eq_true] at h
    rw [hs] at hc
    rcases List.mem_cons.mp hc with rfl | hc
    · rw [continuesIdentifier, h.1, Bool.true_or]
    · exact h.2 c hc

/-- The marks between the steps of a text do not occur in names. -/
theorem not_mem_of_isIdentifier {s : String} (h : isIdentifier s = true) {c : Char}
    (hc : continuesIdentifier c = false) : c ∉ s.toList := by
  intro hmem
  cases hc.symm.trans (continues_of_mem h hmem)

theorem begins_of_isDigit {c : Char} (h : c.isDigit = true) : beginsIdentifier c = false := by
  have hrange : 48 ≤ c.toNat ∧ c.toNat ≤ 57 := by
    simpa [Char.isDigit, UInt32.le_iff_toNat_le] using h
  have hdigits : ∀ n ≤ 57, 48 ≤ n → beginsIdentifier (Char.ofNat n) = false := by decide
  rw [← Char.ofNat_toNat c]
  exact hdigits _ hrange.2 hrange.1

/-- A numeral has digits and signs only. -/
theorem mem_numeral {n : Int} {c : Char} (h : c ∈ (toString n).toList) : c.isDigit = true ∨ c = '-' := by
  have hdigits : ∀ {k : Nat}, c ∈ k.repr.toList → c.isDigit = true := by
    intro k hk
    rw [Nat.repr_eq_ofList_toDigits, String.toList_ofList] at hk
    exact Nat.isDigit_of_mem_toDigits (by decide) (by decide) hk
  rw [Int.toString_eq_repr, Int.repr_eq_if] at h
  split_ifs at h
  · exact Or.inl (hdigits h)
  · rw [String.toList_append, List.mem_append] at h
    rcases h with h | h
    · exact Or.inr (List.mem_singleton.mp h)
    · exact Or.inl (hdigits h)

/-- No numeral is a name. -/
theorem not_isIdentifier_numeral (n : Int) : isIdentifier (toString n) = false := by
  unfold isIdentifier
  split
  · rfl
  · rename_i c cs hs
    have hc : c.isDigit = true ∨ c = '-' := mem_numeral (hs ▸ List.mem_cons_self)
    have hbegins : beginsIdentifier c = false := by
      rcases hc with hc | rfl
      · exact begins_of_isDigit hc
      · decide
    rw [hbegins, Bool.false_and]

/-! ## 2. Indices -/

/-- The index has a text that tells it from others: a position alone, or a variable that is not called
    like an index without one. -/
def Index.isSpelled : Index → Bool
  | ⟨.const, value, var⟩ => value.isSome && var.isNone
  | ⟨.any, _, some x⟩ => isIdentifier x && x != "_"
  | ⟨.any, _, none⟩ => true

/-- The index less a position that is not known. -/
def Index.shown : Index → Index
  | ⟨.any, _, var⟩ => ⟨.any, none, var⟩
  | i => i

theorem Index.render_shown (i : Index) : i.shown.render = i.render := by
  obtain ⟨_ | _, _, _⟩ := i <;> rfl

namespace Index

variable {i j : Index}

/-- The text of an index is a numeral, or a name that tells the variable. -/
theorem isSpelled_cases (hi : i.isSpelled = true) :
    (∃ n : Int, i = ⟨.const, some n, none⟩) ∨
      ∃ value var, i = ⟨.any, value, var⟩ ∧ isIdentifier (var.getD "_") = true ∧ var ≠ some "_" := by
  obtain ⟨kind, value, var⟩ := i
  cases kind with
  | const =>
    obtain ⟨hvalue, hvar⟩ := Bool.and_eq_true_iff.mp hi
    obtain ⟨n, rfl⟩ := Option.isSome_iff_exists.mp hvalue
    exact Or.inl ⟨n, by rw [Option.isNone_iff_eq_none.mp hvar]⟩
  | any =>
    refine Or.inr ⟨value, var, rfl, ?_⟩
    cases var with
    | none => exact ⟨by decide, Option.some_ne_none "_" ∘ Eq.symm⟩
    | some x =>
      obtain ⟨hname, hx⟩ := Bool.and_eq_true_iff.mp hi
      exact ⟨hname, fun h => bne_iff_ne.mp hx (Option.some.inj h)⟩

/-- What stands between brackets holds characters of names and signs only. -/
theorem mem_render (hi : i.isSpelled = true) {c : Char} (hc : c ∈ i.render.toList) :
    continuesIdentifier c = true ∨ c = '-' := by
  rcases isSpelled_cases hi with ⟨n, rfl⟩ | ⟨value, var, rfl, hname, _⟩
  · rcases mem_numeral hc with hc | hc
    · exact Or.inl (by rw [continuesIdentifier, hc, Bool.or_true])
    · exact Or.inr hc
  · exact Or.inl (continues_of_mem hname hc)

/-- The text of an index tells all that is shown of it. -/
theorem render_injective (hi : i.isSpelled = true) (hj : j.isSpelled = true)
    (h : i.render = j.render) : i.shown = j.shown := by
  rcases isSpelled_cases hi with ⟨m, rfl⟩ | ⟨v, x, rfl, hx, hxne⟩ <;>
    rcases isSpelled_cases hj with ⟨n, rfl⟩ | ⟨w, y, rfl, hy, hyne⟩
  · have hmn : toString m = toString n := h
    rw [Int.toString_eq_repr, Int.toString_eq_repr] at hmn
    rw [Int.repr_injective hmn]
  · -- a numeral is no name
    have hm : toString m = y.getD "_" := h
    cases (not_isIdentifier_numeral m).symm.trans (hm ▸ hy)
  · have hn : x.getD "_" = toString n := h
    cases (not_isIdentifier_numeral n).symm.trans (hn ▸ hx)
  · have hxy : x.getD "_" = y.getD "_" := h
    have hvar : x = y := by
      cases x with
      | none =>
        cases y with
        | none => rfl
        | some y => exact absurd (congrArg some hxy.symm) hyne
      | some x =>
        cases y with
        | none => exact absurd (congrArg some hxy) hxne
        | some y => exact congrArg some hxy
    rw [hvar, shown, shown]

end Index

/-! ## 3. Steps -/

namespace Projection

/-- The text of a place one step further in, to which other steps may be added. -/
def onto (out : String) : Projection → String
  | .field f => out ++ "." ++ f
  | .index i => out ++ "[" ++ i.render ++ "]"
  | .deref => "(*" ++ out ++ ")"

def isSpelled : Projection → Bool
  | .field f => isIdentifier f
  | .index i => i.isSpelled
  | .deref => true

def shown : Projection → Projection
  | .index i => .index i.shown
  | s => s

theorem toList_field (out f : String) : (onto out (.field f)).toList = out.toList ++ '.' :: f.toList := by
  simp [onto]

theorem toList_index (out : String) (i : Index) :
    (onto out (.index i)).toList = out.toList ++ '[' :: i.render.toList ++ [']'] := by
  simp [onto]

theorem toList_deref (out : String) : (onto out .deref).toList = '(' :: '*' :: out.toList ++ [')'] := by
  simp [onto]

/-- A list is cut at the last place where an element stands in only one way. -/
theorem cut_unique {x x' y y' : List Char} {c : Char} (h : x ++ c :: y = x' ++ c :: y') (hy : c ∉ y)
    (hy' : c ∉ y') : x = x' ∧ y = y' := by
  rcases List.append_eq_append_iff.mp h with ⟨z, rfl, hz⟩ | ⟨z, rfl, hz⟩
  · cases z with
    | nil => simpa using hz
    | cons d z =>
      cases hz
      exact absurd (List.mem_append_right _ List.mem_cons_self) hy
  · cases z with
    | nil => simpa using hz.symm
    | cons d z =>
      cases hz
      exact absurd (List.mem_append_right _ List.mem_cons_self) hy'

/-- The bracket that a step ends with. -/
def closing : Projection → Option Char
  | .field _ => none
  | .index _ => some ']'
  | .deref => some ')'

/-- The last character of a text shows what kind of step came last. -/
theorem getLast?_onto (out : String) {s : Projection} (hs : s.isSpelled = true) :
    ((s.onto out).toList.getLast?).filter (fun c => c == ']' || c == ')') = s.closing := by
  cases s with
  | field f =>
    -- the last character is the dot, or belongs to the name
    have hne : '.' :: f.toList ≠ [] := List.cons_ne_nil _ _
    have hlast : ∀ c ∈ '.' :: f.toList, c ≠ ']' ∧ c ≠ ')' := by
      intro c hc
      rcases List.mem_cons.mp hc with rfl | hc
      · decide
      · exact ⟨fun h => not_mem_of_isIdentifier hs (by decide) (h ▸ hc),
          fun h => not_mem_of_isIdentifier hs (by decide) (h ▸ hc)⟩
    obtain ⟨h₁, h₂⟩ := hlast _ (List.getLast_mem hne)
    rw [toList_field, List.getLast?_append_of_ne_nil _ hne, List.getLast?_eq_some_getLast hne]
    simp [Option.filter, h₁, h₂, closing]
  | index i =>
    rw [toList_index, List.getLast?_concat]
    rfl
  | deref =>
    rw [toList_deref, List.getLast?_concat]
    rfl

/-- **The last step is read from the end of a text.** -/
theorem onto_injective {out out' : String} {s t : Projection} (hs : s.isSpelled = true)
    (ht : t.isSpelled = true) (h : s.onto out = t.onto out') : out = out' ∧ s.shown = t.shown := by
  have hclosing : s.closing = t.closing := by
    rw [← getLast?_onto out hs, ← getLast?_onto out' ht, h]
  have hchars : (s.onto out).toList = (t.onto out').toList := by rw [h]
  cases s with
  | field f =>
    cases t with
    | index j => cases hclosing
    | deref => cases hclosing
    | field g =>
      rw [toList_field, toList_field] at hchars
      obtain ⟨hout, hfield⟩ := cut_unique hchars (not_mem_of_isIdentifier hs (by decide))
        (not_mem_of_isIdentifier ht (by decide))
      exact ⟨String.ext hout, congrArg field (String.ext hfield)⟩
  | index i =>
    cases t with
    | field g => cases hclosing
    | deref => cases hclosing
    | index j =>
      rw [toList_index, toList_index, List.append_cancel_right_eq] at hchars
      have hbracket : ∀ {k : Index}, k.isSpelled = true → '[' ∉ k.render.toList :=
        fun hk hc => absurd (Index.mem_render hk hc) (by decide)
      obtain ⟨hout, hindex⟩ := cut_unique hchars (hbracket hs) (hbracket ht)
      exact ⟨String.ext hout, congrArg index (Index.render_injective hs ht (String.ext hindex))⟩
  | deref =>
    cases t with
    | field g => cases hclosing
    | index j => cases hclosing
    | deref =>
      rw [toList_deref, toList_deref, List.append_cancel_right_eq] at hchars
      exact ⟨String.ext (List.cons.inj (List.cons.inj hchars).2).2, rfl⟩

/-- A step leaves a mark that no name has. -/
theorem onto_not_identifier (out : String) (s : Projection) : isIdentifier (s.onto out) = false := by
  have hmark : ∃ c ∈ (s.onto out).toList, continuesIdentifier c = false := by
    cases s with
    | field f => exact ⟨'.', by simp [toList_field], by decide⟩
    | index i => exact ⟨']', by simp [toList_index], by decide⟩
    | deref => exact ⟨')', by simp [toList_deref], by decide⟩
  obtain ⟨c, hc, hno⟩ := hmark
  rw [Bool.eq_false_iff]
  exact fun hname => not_mem_of_isIdentifier hname hno hc

/-- No step puts a star in front. -/
theorem head?_onto {out : String} (h : out.toList.head? ≠ some '*') (s : Projection) :
    (s.onto out).toList.head? ≠ some '*' := by
  cases s with
  | field f =>
    rw [toList_field]
    cases hout : out.toList with
    | nil => simp
    | cons c cs => rwa [hout] at h
  | index i =>
    rw [toList_index]
    cases hout : out.toList with
    | nil => simp
    | cons c cs => rwa [hout] at h
  | deref =>
    rw [toList_deref]
    simp

end Projection

/-! ## 4. Paths -/

namespace Path

/-- The text of a path to which other steps may be added. -/
def wrapped (out : String) (p : Path) : String := p.foldl Projection.onto out

theorem wrapped_concat (out : String) (p : Path) (s : Projection) :
    wrapped out (p ++ [s]) = s.onto (wrapped out p) := by
  rw [wrapped, List.foldl_append]
  rfl

/-- **All steps are read from the end of a text**, up to the name of the root. -/
theorem wrapped_injective {m n : String} {p q : Path} (hm : isIdentifier m = true)
    (hn : isIdentifier n = true) (hp : ∀ s ∈ p, s.isSpelled = true) (hq : ∀ s ∈ q, s.isSpelled = true)
    (h : wrapped m p = wrapped n q) : m = n ∧ p.map Projection.shown = q.map Projection.shown := by
  induction p using List.reverseRecOn generalizing q with
  | nil =>
    rcases List.eq_nil_or_concat' q with rfl | ⟨q, t, rfl⟩
    · exact ⟨h, rfl⟩
    · rw [wrapped_concat] at h
      cases hm.symm.trans (h ▸ t.onto_not_identifier _)
  | append_singleton p s ih =>
    rw [wrapped_concat] at h
    rcases List.eq_nil_or_concat' q with rfl | ⟨q, t, rfl⟩
    · cases hn.symm.trans (h ▸ s.onto_not_identifier _)
    · rw [wrapped_concat] at h
      rw [List.forall_mem_append] at hp hq
      obtain ⟨hout, hst⟩ := Projection.onto_injective (hp.2 s List.mem_cons_self)
        (hq.2 t List.mem_cons_self) h
      obtain ⟨hroot, hpath⟩ := ih hp.1 hq.1 hout
      refine ⟨hroot, ?_⟩
      rw [List.map_append, List.map_append, hpath, List.map_singleton, hst, List.map_singleton]

theorem head?_wrapped {out : String} (h : out.toList.head? ≠ some '*') (p : Path) :
    (wrapped out p).toList.head? ≠ some '*' := by
  induction p generalizing out with
  | nil => exact h
  | cons s p ih => exact ih (Projection.head?_onto h s)

/-- A dereference at the end stands in front, without parentheses. -/
theorem renderFrom_concat_deref (out : String) (p : Path) :
    renderFrom out (p ++ [.deref]) = "*" ++ wrapped out p := by
  induction p generalizing out with
  | nil => rfl
  | cons s p ih =>
    cases s with
    | field f => exact ih _
    | index i => exact ih _
    | deref =>
      cases p with
      | nil => exact ih _
      | cons t p => exact ih _

theorem renderFrom_of_getLast? (out : String) {p : Path} (h : p.getLast? ≠ some .deref) :
    renderFrom out p = wrapped out p := by
  induction p generalizing out with
  | nil => rfl
  | cons s p ih =>
    cases p with
    | nil =>
      cases s with
      | field f => rfl
      | index i => rfl
      | deref => exact absurd rfl h
    | cons t p =>
      rw [List.getLast?_cons_cons] at h
      cases s with
      | field f => exact ih _ h
      | index i => exact ih _ h
      | deref => exact ih _ h

end Path

/-! ## 5. Places -/

namespace Place

def isSpelled (p : Place) : Bool := isIdentifier p.name && p.path.all Projection.isSpelled

/-- The place less what its text leaves out. -/
def shown (p : Place) : Place := ⟨p.root, p.path.map Projection.shown⟩

/-- No index whose position is not known has one. -/
def NoSpare (p : Place) : Prop := ∀ i, Projection.index i ∈ p.path → i.kind = .any → i.value = none

variable {a b : Place}

theorem shown_of_noSpare (h : a.NoSpare) : a.shown = a := by
  have hstep : ∀ s ∈ a.path, s.shown = s := by
    intro s hs
    cases s with
    | field f => rfl
    | deref => rfl
    | index i =>
      have hvalue := h i hs
      obtain ⟨_ | _, value, var⟩ := i
      · rw [Projection.shown, Index.shown, show value = none from hvalue rfl]
      · rfl
  rw [shown, List.map_congr_left hstep, List.map_id'']
  exact fun _ => rfl

/-- A text is that of the steps, or a star before that of all steps but a dereference at the end. -/
theorem render_cases (p : Place) :
    (∃ q, p.path = q ++ [.deref] ∧ p.render = "*" ++ Path.wrapped p.name q) ∨
      p.render = Path.wrapped p.name p.path := by
  by_cases h : p.path.getLast? = some .deref
  · obtain ⟨q, hq⟩ := List.getLast?_eq_some_iff.mp h
    refine Or.inl ⟨q, hq, ?_⟩
    rw [render, hq, Path.renderFrom_concat_deref]
    rfl
  · exact Or.inr (Path.renderFrom_of_getLast? _ h)

/-- **The text of a place tells its name and what is shown of its path.** -/
theorem render_injective (ha : a.isSpelled = true) (hb : b.isSpelled = true)
    (h : a.render = b.render) :
    a.name = b.name ∧ a.path.map Projection.shown = b.path.map Projection.shown := by
  obtain ⟨hma, hpa⟩ := Bool.and_eq_true_iff.mp ha
  obtain ⟨hmb, hpb⟩ := Bool.and_eq_true_iff.mp hb
  rw [List.all_eq_true] at hpa hpb
  have hstar : ∀ {n : String} {p : Path}, isIdentifier n = true →
      (Path.wrapped n p).toList.head? ≠ some '*' := by
    intro n p hn
    refine Path.head?_wrapped (fun hs => ?_) p
    exact not_mem_of_isIdentifier hn (by decide) (List.mem_of_mem_head? hs)
  rcases render_cases a with ⟨p, hp, hra⟩ | hra <;> rcases render_cases b with ⟨q, hq, hrb⟩ | hrb
  · -- both are dereferences at the end
    rw [hp, List.forall_mem_append] at hpa
    rw [hq, List.forall_mem_append] at hpb
    rw [hra, hrb, String.append_right_inj] at h
    obtain ⟨hname, hpath⟩ := Path.wrapped_injective hma hmb hpa.1 hpb.1 h
    exact ⟨hname, by rw [hp, hq, List.map_append, List.map_append, hpath]⟩
  · rw [hra, hrb] at h
    exact absurd (by rw [← h]; simp) (hstar (p := b.path) hmb)
  · rw [hra, hrb] at h
    exact absurd (by rw [h]; simp) (hstar (p := a.path) hma)
  · rw [hra, hrb] at h
    exact Path.wrapped_injective hma hmb hpa hpb h

/-- What is left out of a text does not matter to it. -/
theorem render_shown (p : Place) : p.shown.render = p.render := by
  have hpath : ∀ (out : String) (q : Path),
      Path.renderFrom out (q.map Projection.shown) = Path.renderFrom out q := by
    intro out q
    induction q generalizing out with
    | nil => rfl
    | cons s q ih =>
      cases s with
      | field f => exact ih _
      | index i =>
        show Path.renderFrom (out ++ "[" ++ i.shown.render ++ "]") _ = _
        rw [i.render_shown]
        exact ih _
      | deref =>
        cases q with
        | nil => rfl
        | cons t q => exact ih _
  exact hpath p.root.name p.path

/-- **Places have one text if they are shown alike.** -/
theorem render_inj_iff (hkind : a.root.kind = b.root.kind) (ha : a.isSpelled = true)
    (hb : b.isSpelled = true) : a.render = b.render ↔ a.shown = b.shown := by
  constructor
  · intro h
    obtain ⟨hname, hpath⟩ := render_injective ha hb h
    have hroot : a.root = b.root := by
      obtain ⟨⟨k, n⟩, p⟩ := a
      obtain ⟨⟨l, m⟩, q⟩ := b
      exact congrArg₂ Root.mk hkind hname
    rw [shown, shown, hroot, hpath]
  · intro h
    rw [← a.render_shown, h, b.render_shown]

end Place

/-! ## 6. Findings -/

/-- What each finding of a list is about: a place that it gives the text of, whose names can be told
    apart. The places with one root name have one root. -/
structure Finding.About (rs : List Finding) (about : Finding → Place) : Prop where
  text : ∀ r ∈ rs, r.place = (about r).render
  spelled : ∀ r ∈ rs, (about r).isSpelled = true
  roots : ∀ r ∈ rs, ∀ s ∈ rs, (about r).name = (about s).name →
    (about r).root.kind = (about s).root.kind

/-- Findings with one key are about places that are shown alike. -/
theorem Finding.About.shown_eq {rs : List Finding} {about : Finding → Place} (h : About rs about)
    {r s : Finding} (hr : r ∈ rs) (hs : s ∈ rs) (hkey : r.key = s.key) :
    (about r).shown = (about s).shown := by
  have hplace : r.place = s.place := congrArg (·.2.1) hkey
  have htext : (about r).render = (about s).render := by rw [← h.text r hr, hplace, h.text s hs]
  have hname := (Place.render_injective (h.spelled r hr) (h.spelled s hs) htext).1
  exact (Place.render_inj_iff (h.roots r hr s hs hname) (h.spelled r hr) (h.spelled s hs)).mp htext

/-- **The text of a place tells the place**, up to positions of indices that are not known, which it
    leaves out: among places without such positions no two of one kind of root have one text. So
    findings with one key are about the same place, and a report says something about every place
    that a finding was about, with the kind and the point of the finding. -/
theorem render_identifies :
    (∀ a b : Place, a.root.kind = b.root.kind → a.isSpelled = true → b.isSpelled = true →
      (a.render = b.render ↔ a.shown = b.shown) ∧
      (a.NoSpare → b.NoSpare → a.render = b.render → a = b) ∧
      ∀ r s : Finding, r.place = a.render → s.place = b.render → r.key = s.key → a.shown = b.shown) ∧
    (∀ (name : String) (rs : List Finding) (about : Finding → Place), Finding.About rs about →
      ∀ r ∈ rs, ∃ x ∈ (Report.build name rs).findings, x.kind = r.kind ∧ x.point = r.point ∧
        (about x).shown = (about r).shown) := by
  refine ⟨fun a b hkind ha hb => ?_, fun name rs about h r hr => ?_⟩
  · have hiff := Place.render_inj_iff hkind ha hb
    refine ⟨hiff, fun hsa hsb htext => ?_, fun r s hr hs hkey => hiff.mp ?_⟩
    · rw [← Place.shown_of_noSpare hsa, ← Place.shown_of_noSpare hsb]
      exact hiff.mp htext
    · rw [← hr, ← hs]
      exact congrArg (·.2.1) hkey
  · obtain ⟨x, hx, hkey⟩ := Report.exists_leads hr
    exact ⟨x, (Report.mem_findings_build name).mpr hx, congrArg (·.1) hkey, congrArg (·.2.2) hkey,
      h.shown_eq hx.mem hr hkey⟩

/-- The field of what `r` points to, and what the field of `r` points to. -/
def fieldBehind : Place :=
  ⟨⟨.localVar, "r"⟩, [.deref, .field "f", .index { kind := .any, var := some "i" }]⟩

def behindField : Place :=
  ⟨⟨.localVar, "r"⟩, [.field "f", .deref, .index { kind := .any, var := some "i" }]⟩

/-- Conflicts of one access with loans of both. -/
def conflictsBehind : List Finding :=
  [⟨.aliasingConflict, fieldBehind.render, ⟨0, 1⟩, "loan #0", none, some 0⟩,
   ⟨.aliasingConflict, behindField.render, ⟨0, 1⟩, "loan #1", none, some 1⟩]

def aboutBehind (r : Finding) : Place := if r.loan = some 0 then fieldBehind else behindField

/-- `(*r).f[i]` and `(*r.f)[i]` are told apart by their texts, and conflicts about both at one point are
    both reported. -/
theorem render_identifies_behind :
    fieldBehind.render ≠ behindField.render ∧ Finding.About conflictsBehind aboutBehind ∧
      (∃ x ∈ (Report.build "f" conflictsBehind).findings, (aboutBehind x).shown = fieldBehind.shown) ∧
      ∃ x ∈ (Report.build "f" conflictsBehind).findings, (aboutBehind x).shown = behindField.shown := by
  obtain ⟨htext, hreport⟩ := render_identifies
  have hspelled : fieldBehind.isSpelled = true ∧ behindField.isSpelled = true := by decide
  have hcases : ∀ {P : Finding → Prop}, (∀ r ∈ conflictsBehind, P r) ↔
      P ⟨.aliasingConflict, fieldBehind.render, ⟨0, 1⟩, "loan #0", none, some 0⟩ ∧
        P ⟨.aliasingConflict, behindField.render, ⟨0, 1⟩, "loan #1", none, some 1⟩ := by
    simp [conflictsBehind]
  have habout : Finding.About conflictsBehind aboutBehind :=
    ⟨hcases.mpr ⟨rfl, rfl⟩, hcases.mpr hspelled, hcases.mpr
      ⟨hcases.mpr ⟨fun _ => rfl, fun _ => rfl⟩, hcases.mpr ⟨fun _ => rfl, fun _ => rfl⟩⟩⟩
  obtain ⟨hfirst, hsecond⟩ := hcases.mp (hreport "f" conflictsBehind aboutBehind habout)
  refine ⟨fun h => ?_, habout, ?_, ?_⟩
  · have hshown := (htext fieldBehind behindField rfl hspelled.1 hspelled.2).1.mp h
    exact absurd hshown (by decide)
  · obtain ⟨x, hx, _, _, hshown⟩ := hfirst
    exact ⟨x, hx, hshown⟩
  · obtain ⟨x, hx, _, _, hshown⟩ := hsecond
    exact ⟨x, hx, hshown⟩

/-- A position that is not known, left in place and left out. -/
def anyWithPosition : Place := ⟨⟨.localVar, "a"⟩, [.index { kind := .any, value := some 5 }]⟩

def anyWithoutPosition : Place := ⟨⟨.localVar, "a"⟩, [.index { kind := .any }]⟩

/-- Both are written `a[_]`. -/
theorem render_leaves_position :
    anyWithPosition.root.kind = anyWithoutPosition.root.kind ∧ anyWithPosition.isSpelled = true ∧
      anyWithoutPosition.isSpelled = true ∧ anyWithPosition.render = anyWithoutPosition.render ∧
      anyWithPosition ≠ anyWithoutPosition := by
  refine ⟨rfl, by decide, by decide, rfl, by decide⟩

end Ownership
