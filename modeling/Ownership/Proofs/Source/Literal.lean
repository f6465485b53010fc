import Mathlib.Data.List.TakeWhile
import Mathlib.Tactic.SplitIfs
import Ownership.Source.Literal

/-!
# Which string literals can be evaluated

A backslash asks something of what follows it only when it begins a code point: then the right number of
hexadecimal digits has to follow, and the number may not be too large, or a name between braces that some
code point has. A line end that no backslash joins is refused. Everything else can be evaluated.

* `WellSpelled`: the inner texts of literals that can be evaluated, for given names of code points;
* `unescape_isSome_iff`: the bound on the parts is never used up;
* `evalString_eq_error_iff`: the two ways in which a literal fails.
-/

namespace Ownership.Source

open Text (CodePoint codePoint?)

variable {names : CodeNames} {c : Char} {cs : List Char}

/-! ## 1. Spelling -/

/-- Every escape of the text means something, and every line end is joined. -/
inductive WellSpelled (names : CodeNames) : List Char → Prop where
  | nil : WellSpelled names []
  | plain {c : Char} {cs : List Char} (hc : c ≠ '\\') (hr : c ≠ '\r') (h : WellSpelled names cs) :
    WellSpelled names (c :: cs)
  /-- A backslash before anything that does not begin a code point. -/
  | escape {c : Char} {cs : List Char} (hw : codeWidth? c = none) (hn : c ≠ 'N')
    (h : WellSpelled names cs) : WellSpelled names ('\\' :: c :: cs)
  /-- A code point by its hexadecimal digits. -/
  | code {c : Char} {cs : List Char} {w : Nat} {d : CodePoint} (hw : codeWidth? c = some w)
    (hlen : (cs.take w).length = w) (hd : (Text.ofHex? (cs.take w)).bind codePoint? = some d)
    (h : WellSpelled names (cs.drop w)) : WellSpelled names ('\\' :: c :: cs)
  /-- A code point by its name. -/
  | named {cs name : List Char} {d : CodePoint} (hb : braced? cs = some name) (hd : names name = some d)
    (h : WellSpelled names (cs.drop (name.length + 2))) : WellSpelled names ('\\' :: 'N' :: cs)

theorem wellSpelled_plain_iff (hc : c ≠ '\\') (hr : c ≠ '\r') :
    WellSpelled names (c :: cs) ↔ WellSpelled names cs := by
  refine ⟨fun h => ?_, .plain hc hr⟩
  cases h with
  | plain _ _ h => exact h
  | escape => exact absurd rfl hc
  | code => exact absurd rfl hc
  | named => exact absurd rfl hc

theorem wellSpelled_escape_iff (hw : codeWidth? c = none) (hn : c ≠ 'N') :
    WellSpelled names ('\\' :: c :: cs) ↔ WellSpelled names cs := by
  refine ⟨fun h => ?_, .escape hw hn⟩
  cases h with
  | plain hc => exact absurd rfl hc
  | escape _ _ h => exact h
  | code hw' =>
    rw [hw] at hw'
    cases hw'
  | named => exact absurd rfl hn

theorem wellSpelled_code_iff {w : Nat} (hw : codeWidth? c = some w) :
    WellSpelled names ('\\' :: c :: cs) ↔ (cs.take w).length = w ∧
      (∃ d, (Text.ofHex? (cs.take w)).bind codePoint? = some d) ∧ WellSpelled names (cs.drop w) := by
  constructor
  · intro h
    cases h with
    | plain hc => exact absurd rfl hc
    | escape hw' =>
      rw [hw] at hw'
      cases hw'
    | code hw' hlen hd h =>
      rw [hw] at hw'
      cases hw'
      exact ⟨hlen, ⟨_, hd⟩, h⟩
    | named => cases hw
  · intro h
    obtain ⟨hlen, ⟨d, hd⟩, h⟩ := h
    exact .code hw hlen hd h

theorem wellSpelled_named_iff : WellSpelled names ('\\' :: 'N' :: cs) ↔
    ∃ name d, braced? cs = some name ∧ names name = some d ∧
      WellSpelled names (cs.drop (name.length + 2)) := by
  constructor
  · intro h
    cases h with
    | plain hc => exact absurd rfl hc
    | escape _ hn => exact absurd rfl hn
    | code hw => cases hw
    | named hb hd h => exact ⟨_, _, hb, hd, h⟩
  · rintro ⟨name, d, hb, hd, h⟩
    exact .named hb hd h

/-- Octal digits stand for themselves when no backslash is before them. -/
theorem wellSpelled_drop_iff {k : Nat} (h : ∀ x ∈ cs.take k, isOctal x = true) :
    WellSpelled names (cs.drop k) ↔ WellSpelled names cs := by
  induction k generalizing cs with
  | zero => exact Iff.rfl
  | succ k ih =>
    cases cs with
    | nil => exact Iff.rfl
    | cons c cs =>
      obtain ⟨hc, hcs⟩ := List.forall_mem_cons.mp h
      rw [List.drop_succ_cons, ih hcs]
      refine (wellSpelled_plain_iff ?_ ?_).symm
      · intro he
        subst he
        cases hc
      · intro he
        subst he
        cases hc

/-! ## 2. Escapes -/

theorem escape?_code {w : Nat} (hw : codeWidth? c = some w) : escape? names (c :: cs) =
    if (cs.take w).length = w then
      ((Text.ofHex? (cs.take w)).bind codePoint?).map fun d => ([d], w + 1)
    else none := by
  unfold codeWidth? at hw
  split at hw <;> cases hw <;> rfl

theorem escape?_named : escape? names ('N' :: cs) =
    (braced? cs).bind fun name => (names name).map fun d => ([d], name.length + 3) := by
  have hdo : escape? names ('N' :: cs) = (do
      let name ← braced? cs
      let d ← names name
      pure ([d], name.length + 3)) := rfl
  rw [hdo]
  cases braced? cs with
  | none => rfl
  | some name => exact (Option.map_eq_bind ..).symm

/-- A backslash before anything else takes one character, or octal digits. -/
theorem escape?_other (hw : codeWidth? c = none) (hn : c ≠ 'N') :
    ∃ ds k, escape? names (c :: cs) = some (ds, k + 1) ∧ ∀ x ∈ cs.take k, isOctal x = true := by
  have hnone : ∀ x ∈ cs.take 0, isOctal x = true := fun x hx => nomatch hx
  rw [escape?]
  by_cases hr : c = '\r'
  · rw [if_pos hr]
    exact ⟨_, 0, rfl, hnone⟩
  rw [if_neg hr]
  cases letterEscape? c with
  | some d => exact ⟨_, 0, rfl, hnone⟩
  | none =>
    by_cases ho : isOctal c = true
    · -- the first digit and at most two more
      have hpre : (cs.take 2).takeWhile isOctal <+: cs :=
        (List.takeWhile_prefix _).trans (List.take_prefix 2 cs)
      simp only [if_pos ho, List.take_succ_cons, List.takeWhile_cons_of_pos ho, List.length_cons]
      refine ⟨_, _, rfl, fun x hx => ?_⟩
      rw [← List.prefix_iff_eq_take.mp hpre] at hx
      exact List.mem_takeWhile_imp hx
    · simp only [ho, hw, if_neg hn]
      exact ⟨_, 0, rfl, hnone⟩

theorem exists_read_iff {x : List CodePoint × Nat} {P : Nat → Prop} :
    (∃ ds k, some x = some (ds, k) ∧ P k) ↔ P x.2 := by
  refine ⟨fun h => ?_, fun h => ⟨_, _, rfl, h⟩⟩
  obtain ⟨_, _, hx, h⟩ := h
  cases hx
  exact h

/-- What stands behind a backslash, and the rest of the text. -/
theorem wellSpelled_backslash_iff : WellSpelled names ('\\' :: cs) ↔
    ∃ ds k, escape? names cs = some (ds, k) ∧ WellSpelled names (cs.drop k) := by
  cases cs with
  | nil =>
    refine iff_of_false (fun h => ?_) fun h => ?_
    · cases h with
      | plain hc => exact absurd rfl hc
    · obtain ⟨_, _, h, _⟩ := h
      cases h
  | cons c cs =>
    cases hw : codeWidth? c with
    | some w =>
      rw [wellSpelled_code_iff hw, escape?_code hw]
      split_ifs with hlen
      · cases hd : (Text.ofHex? (cs.take w)).bind codePoint? with
        | none => simp
        | some d =>
          rw [Option.map_some, exists_read_iff]
          exact ⟨fun h => h.2.2, fun h => ⟨hlen, ⟨d, rfl⟩, h⟩⟩
      · exact iff_of_false (fun h => hlen h.1) fun h => by
          obtain ⟨_, _, h, _⟩ := h
          cases h
    | none =>
      by_cases hn : c = 'N'
      · subst hn
        rw [wellSpelled_named_iff, escape?_named]
        cases hb : braced? cs with
        | none => simp
        | some name =>
          rw [Option.bind_some]
          cases hd : names name with
          | none => simp [hd]
          | some d =>
            rw [Option.map_some, exists_read_iff]
            simp [hd]
      · obtain ⟨ds, k, he, hk⟩ := @escape?_other names c cs hw hn
        rw [wellSpelled_escape_iff hw hn, he, exists_read_iff, ← wellSpelled_drop_iff hk]
        exact Iff.rfl

/-! ## 3. Literals -/

/-- **A text is evaluated exactly if it is well spelled**, whatever the bound on its parts is above its
    length. -/
theorem unescape_isSome_iff {n : Nat} (hn : cs.length ≤ n) :
    (unescape names n cs).isSome = true ↔ WellSpelled names cs := by
  induction n generalizing cs with
  | zero =>
    cases List.eq_nil_of_length_eq_zero (Nat.le_zero.mp hn)
    exact iff_of_true rfl .nil
  | succ n ih =>
    cases cs with
    | nil => exact iff_of_true rfl .nil
    | cons c cs =>
      have hcs : cs.length ≤ n := Nat.le_of_succ_le_succ hn
      unfold unescape
      split_ifs with hr hc
      · subst hr
        refine iff_of_false Bool.false_ne_true fun h => ?_
        cases h with
        | plain _ hr => exact absurd rfl hr
      · subst hc
        rw [wellSpelled_backslash_iff]
        cases he : escape? names cs with
        | none => simp
        | some x =>
          have hrest : (cs.drop x.2).length ≤ n :=
            Nat.le_trans (List.drop_sublist x.2 cs).length_le hcs
          have hsome : (do
              let more ← unescape names n (cs.drop x.2)
              pure (x.1 ++ more)).isSome = (unescape names n (cs.drop x.2)).isSome := by
            cases unescape names n (cs.drop x.2) <;> rfl
          rw [exists_read_iff, ← ih hrest]
          exact Bool.eq_iff_iff.mp hsome
      · rw [Option.isSome_map, ih hcs, wellSpelled_plain_iff hc hr]

/-- What stands between the quotes of a literal. -/
def innerText (literal : String) : List Char := (literal.toList.drop 1).dropLast

theorem evalString_eq (literal : String) : evalString names literal =
    if (innerText literal).contains (Char.ofNat 0) then Except.error .nullInLiteral
    else match unescape names (innerText literal).length (innerText literal) with
      | some cs => Except.ok cs
      | none => Except.error .badLiteral := rfl

/-- **How a literal fails**: it holds a null character, or it is not well spelled. -/
theorem evalString_eq_error_iff {literal : String} {e : Error} : evalString names literal = .error e ↔
    (Char.ofNat 0 ∈ innerText literal ∧ e = .nullInLiteral) ∨
      (Char.ofNat 0 ∉ innerText literal ∧ ¬ WellSpelled names (innerText literal) ∧ e = .badLiteral) := by
  rw [← unescape_isSome_iff (Nat.le_refl _)]
  rw [evalString_eq]
  by_cases h0 : Char.ofNat 0 ∈ innerText literal
  · rw [if_pos (List.contains_iff_mem.mpr h0)]
    rw [Except.error.injEq, @eq_comm _ _ e]
    exact ⟨fun he => Or.inl ⟨h0, he⟩, fun h => (h.resolve_right fun hr => hr.1 h0).2⟩
  · rw [if_neg (mt List.contains_iff_mem.mp h0)]
    cases unescape names (innerText literal).length (innerText literal) with
    | some cs =>
      refine iff_of_false (fun h => nomatch h) fun h => ?_
      exact (h.resolve_left fun hl => h0 hl.1).2.1 rfl
    | none =>
      rw [Except.error.injEq, @eq_comm _ _ e]
      refine ⟨fun he => Or.inr ⟨h0, Bool.false_ne_true, he⟩, fun h => ?_⟩
      exact (h.resolve_left fun hl => h0 hl.1).2.2

/-- One code point that has a name. -/
def bullet : CodeNames := fun name => if name = "BULLET".toList then some 0x2022 else none

-- a name and half a pair, then a name that no code point has
example : (evalString bullet "\"\\N\x7bBULLET\x7d\\ud800\"").toOption = some [0x2022, 0xd800] := by
  decide +kernel

example : (evalString bullet "\"\\N\x7bDOT\x7d\"").toOption = none := by decide +kernel

end Ownership.Source
