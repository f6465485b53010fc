import Mathlib.Data.List.Basic
import Ownership.Source.Reader

/-!
# What the reader hands on

Lists are read with a bound on their length, and a function whose declarations used the bound up would
come out without blocks. That does not happen: every declaration begins with a word, which takes a
character off the text, no reader gives anything back, and the bound is more than the text is long.
Whatever a reader cannot go on with, it refuses: no other error comes from reading.

* `Cursor.next_eq_ok`, `Cursor.next_eq_error`: what a token takes off the text;
* `Reader.Forward`: a reader that gives nothing back and only refuses, proved for every reader in turn;
* `FunctionTree.Shaped`, `shaped_of_readAll`: what is known of every function that is read;
* `refusal_of_readAll`: a text that cannot be read is refused.
-/

namespace Ownership.Source

/-! ## 1. Tokens -/

theorem skip_length (inComment : Bool) (cs : List Char) (p : Position) :
    (skip inComment cs p).1.length ≤ cs.length := by
  induction cs generalizing inComment p with
  | nil => exact Nat.le_refl _
  | cons c cs ih =>
    unfold skip
    split_ifs
    · exact Nat.le_trans (ih _ _) (Nat.le_succ _)
    · exact Nat.le_trans (ih _ _) (Nat.le_succ _)
    · exact Nat.le_trans (ih _ _) (Nat.le_succ _)
    · exact Nat.le_refl _

theorem length_ofList_takeWhile {p : Char → Bool} {c : Char} {cs : List Char} (h : p c = true) :
    0 < (String.ofList ((c :: cs).takeWhile p)).length := by
  rw [String.length_ofList, List.takeWhile_cons_of_pos h]
  exact Nat.succ_pos _

theorem isNameChar_of_isNameStart {c : Char} (h : isNameStart c = true) : isNameChar c = true := by
  rw [isNameChar, h, Bool.true_or]

theorem anyToken?_length {cs : List Char} {kind : TokenKind} {text : String}
    (h : anyToken? cs = some (kind, text)) : 0 < text.length := by
  unfold anyToken? at h
  split at h
  · cases h
  · rename_i c rest
    split_ifs at h with hname hdigit hquote
    · cases h
      exact length_ofList_takeWhile (isNameChar_of_isNameStart hname)
    · cases h
      exact length_ofList_takeWhile hdigit
    · obtain ⟨tail, _, he⟩ := Option.map_eq_some_iff.mp h
      cases he
      rw [String.length_ofList]
      exact Nat.succ_pos _
    · obtain ⟨m, hm, he⟩ := Option.map_eq_some_iff.mp h
      cases he
      have hall : ∀ m ∈ marks.map Prod.fst, 0 < m.length := by decide
      exact hall _ (List.mem_of_find?_eq_some hm)

/-- Where a name may stand, a token has at least one character. -/
theorem token?_length {e : Expect} (he : e.names = true) {cs : List Char} {kind : TokenKind}
    {text : String} (h : token? e cs = some (kind, text)) : 0 < text.length := by
  unfold token? at h
  rw [he, if_pos rfl] at h
  split_ifs at h with hname
  · cases cs with
    | nil => cases hname
    | cons c rest =>
      cases h
      exact length_ofList_takeWhile (isNameChar_of_isNameStart hname)
  · exact anyToken?_length h

/-- A token is taken off the front of the text; at the end there is nothing to take. -/
theorem Cursor.next_eq_ok {c c' : Cursor} {e : Expect} {t : Token} (h : c.next e = .ok (t, c')) :
    c'.rest.length ≤ c.rest.length ∧
      (e.names = true → t.kind ≠ .ending → c'.rest.length < c.rest.length) := by
  have hskip := skip_length false c.rest c.pos
  unfold Cursor.next at h
  split at h
  · cases h
    exact ⟨Nat.le_refl _, fun _ hne => absurd rfl hne⟩
  · rename_i ch cs pos hs
    rw [hs] at hskip
    split at h
    · cases h
    · rename_i kind text ht
      cases h
      simp only [List.length_drop, List.length_cons] at hskip ⊢
      refine ⟨Nat.le_trans (Nat.sub_le _ _) hskip, fun he _ => ?_⟩
      have hpos := token?_length he ht
      omega

/-- The text is refused for a cause that concerns it as such. -/
def Error.isRefusal : Error → Bool
  | .refused _ _ => true
  | .badLiteral | .nullInLiteral | .tooManyDigits _ | .typeTaken _ => false

theorem Cursor.next_eq_error {c : Cursor} {e : Expect} {err : Error} (h : c.next e = .error err) :
    err.isRefusal = true := by
  unfold Cursor.next at h
  split at h
  · cases h
  · split at h
    · cases h
      rfl
    · cases h

namespace Reader

variable {α β : Type} {c c' : Cursor}

/-! ## 2. Readers that give nothing back -/

theorem bind_eq_ok {r : Reader α} {k : α → Reader β} {b : β} :
    (r >>= k) c = .ok (b, c') ↔ ∃ a d, r c = .ok (a, d) ∧ k a d = .ok (b, c') := by
  have hbind : (r >>= k) c = (r c >>= fun x => k x.1 x.2) := rfl
  rw [hbind]
  constructor
  · intro h
    cases hr : r c with
    | error e =>
      rw [hr] at h
      cases h
    | ok x =>
      rw [hr] at h
      exact ⟨x.1, x.2, rfl, h⟩
  · rintro ⟨a, d, h, hk⟩
    rw [h]
    exact hk

theorem bind_eq_error {r : Reader α} {k : α → Reader β} {e : Error} (h : (r >>= k) c = .error e) :
    r c = .error e ∨ ∃ a d, r c = .ok (a, d) ∧ k a d = .error e := by
  change (r c >>= fun x => k x.1 x.2) = .error e at h
  cases hr : r c with
  | error e' =>
    rw [hr] at h
    cases h
    exact Or.inl rfl
  | ok x =>
    rw [hr] at h
    exact Or.inr ⟨x.1, x.2, rfl, h⟩

/-- The reader gives nothing back of the text, and what it cannot read it refuses. -/
structure Forward (r : Reader α) : Prop where
  shrinks : ∀ ⦃c a c'⦄, r c = .ok (a, c') → c'.rest.length ≤ c.rest.length
  refuses : ∀ ⦃c e⦄, r c = .error e → e.isRefusal = true

namespace Forward

theorem pure (a : α) : Forward (Pure.pure a : Reader α) where
  shrinks c a c' h := by
    cases h
    exact Nat.le_refl _
  refuses c e h := nomatch h

theorem bind {r : Reader α} {k : α → Reader β} (hr : Forward r) (hk : ∀ a, Forward (k a)) :
    Forward (r >>= k) where
  shrinks c b c' h := by
    obtain ⟨a, d, ha, hb⟩ := bind_eq_ok.mp h
    exact Nat.le_trans ((hk a).shrinks hb) (hr.shrinks ha)
  refuses c e h := by
    rcases bind_eq_error h with h | ⟨a, d, _, h⟩
    · exact hr.refuses h
    · exact (hk a).refuses h

theorem map {r : Reader α} (hr : Forward r) (g : α → β) : Forward (g <$> r) :=
  hr.bind fun a => .pure (g a)

theorem unexpected (t : Token) : Forward (Reader.unexpected t : Reader α) where
  shrinks c a c' h := nomatch h
  refuses c e h := by
    cases h
    rfl

theorem next (e : Expect) : Forward (Reader.next e) :=
  ⟨fun _ _ _ h => (Cursor.next_eq_ok h).1, fun _ _ h => Cursor.next_eq_error h⟩

theorem peek (e : Expect) : Forward (Reader.peek e) := by
  have hpeek : ∀ c, Reader.peek e c = (c.next e).map fun x => (x.1, c) := fun _ => rfl
  constructor
  · intro c t c' h
    rw [hpeek] at h
    cases hn : c.next e with
    | error e =>
      rw [hn] at h
      cases h
    | ok x =>
      rw [hn] at h
      cases h
      exact Nat.le_refl _
  · intro c err h
    rw [hpeek] at h
    cases hn : c.next e with
    | error e =>
      rw [hn] at h
      cases h
      exact Cursor.next_eq_error hn
    | ok x =>
      rw [hn] at h
      cases h

theorem mark (m : String) : Forward (Reader.mark m) := by
  refine (next _).bind fun t => ?_
  split
  · exact .pure t
  · exact .unexpected t

theorem name : Forward Reader.name := by
  refine (next _).bind fun t => ?_
  split
  · exact .pure t
  · exact .unexpected t

theorem commaTail {item : Reader α} (hitem : Forward item) (closing : String)
    (trailing : Option Expect) (n : Nat) : Forward (Reader.commaTail item closing trailing n) := by
  induction n with
  | zero => exact .pure _
  | succ n ih =>
    refine hitem.bind fun first => (next _).bind fun t => ?_
    have hmore : Forward (do
        let more ← Reader.commaTail item closing trailing n
        Pure.pure (first :: more)) := ih.bind fun _ => .pure _
    split
    · exact .pure _
    · split
      · split
        · refine (peek _).bind fun t => ?_
          split
          · exact (next _).bind fun _ => .pure _
          · exact hmore
        · exact hmore
      · exact .unexpected t

theorem commaList {item : Reader α} (hitem : Forward item) (closing : String) (start : Expect)
    (trailing : Bool) (n : Nat) : Forward (Reader.commaList item closing start trailing n) := by
  refine (peek _).bind fun t => ?_
  split
  · exact (next _).bind fun _ => .pure _
  · exact commaTail hitem closing _ n

theorem typeAfter (t : Token) (n : Nat) : Forward (Reader.typeAfter t n) := by
  induction n generalizing t with
  | zero => exact .unexpected t
  | succ n ih =>
    unfold Reader.typeAfter
    split
    · exact .pure _
    · refine (next _).bind fun t => ?_
      split
      · exact (next _).bind fun t => (ih t).bind fun _ => .pure _
      · exact (ih t).bind fun _ => .pure _
    · exact (next _).bind fun t => (ih t).bind fun _ => (mark _).bind fun _ => .pure _
    · exact .unexpected t

theorem typedName (n : Nat) : Forward (Reader.typedName n) :=
  name.bind fun _ => (mark _).bind fun _ =>
    ((next _).bind fun t => typeAfter t n).bind fun _ => .pure _

theorem steps (n : Nat) : Forward (Reader.steps n) := by
  induction n with
  | zero => exact .pure _
  | succ n ih =>
    refine (peek _).bind fun t => ?_
    split
    · refine (next _).bind fun _ => (next _).bind fun t => ?_
      have hrest : ∀ step, Forward (do
          let more ← Reader.steps n
          Pure.pure (step :: more)) := fun _ => ih.bind fun _ => .pure _
      dsimp only
      split
      · exact (Forward.pure _).bind hrest
      · exact (Forward.pure _).bind hrest
      · exact (Forward.unexpected t).bind hrest
    · split
      · refine (next _).bind fun _ => (next _).bind fun t => ?_
        have hrest : ∀ step, Forward (do
            let _ ← Reader.mark "]"
            let more ← Reader.steps n
            Pure.pure (step :: more)) := fun _ => (mark _).bind fun _ => ih.bind fun _ => .pure _
        dsimp only
        split
        · exact (Forward.pure _).bind hrest
        · exact (Forward.pure _).bind hrest
        · exact (Forward.pure _).bind hrest
        · exact (Forward.unexpected t).bind hrest
      · exact .pure _

theorem placeAfter (t : Token) (n : Nat) : Forward (Reader.placeAfter t n) := by
  unfold Reader.placeAfter
  split
  · exact (steps n).bind fun _ => .pure _
  · exact .unexpected t

theorem place (n : Nat) : Forward (Reader.place n) := (next _).bind fun t => placeAfter t n

theorem borrowed (n : Nat) : Forward (Reader.borrowed n) := by
  refine (next _).bind fun t => ?_
  split
  · exact (place n).bind fun _ => .pure _
  · exact (placeAfter t n).bind fun _ => .pure _

theorem operandAfter? {t : Token} {n : Nat} {r : Reader OperandTree}
    (h : Reader.operandAfter? t n = some r) : Forward r := by
  unfold Reader.operandAfter? at h
  split at h <;> cases h
  · exact (place n).map _
  · exact (place n).map _
  · exact borrowed n
  · exact .pure _
  · exact .pure _
  · exact .pure _
  · exact .pure _

theorem operand (n : Nat) : Forward (Reader.operand n) := by
  refine (next _).bind fun t => ?_
  cases h : Reader.operandAfter? t n with
  | none => exact .unexpected t
  | some r => exact operandAfter? h

theorem fieldInit (n : Nat) : Forward (Reader.fieldInit n) :=
  name.bind fun _ => (mark _).bind fun _ => (operand n).bind fun _ => .pure _

theorem value (n : Nat) : Forward (Reader.value n) := by
  refine (next _).bind fun t => ?_
  split
  · exact (place n).map _
  · exact name.map _
  · exact name.bind fun _ => (mark _).bind fun _ => (commaList (operand n) _ _ _ n).bind fun _ => .pure _
  · exact (mark _).bind fun _ => (commaList (fieldInit n) _ _ _ n).bind fun _ => .pure _
  · split
    · rename_i h
      exact (operandAfter? h).map _
    · exact .unexpected t

theorem terminatorAfter? {t : Token} {n : Nat} {r : Reader TerminatorTree}
    (h : Reader.terminatorAfter? t n = some r) : Forward r := by
  unfold Reader.terminatorAfter? at h
  split at h <;> cases h
  · exact name.bind fun _ => (mark _).bind fun _ => .pure _
  · exact (operand n).bind fun _ => (mark _).bind fun _ => name.bind fun _ => (mark _).bind fun _ =>
      name.bind fun _ => (mark _).bind fun _ => .pure _
  · exact (mark _).bind fun _ => .pure _
  · exact (mark _).bind fun _ => .pure _

theorem statementAfter (t : Token) (n : Nat) : Forward (Reader.statementAfter t n) := by
  have hrest : ∀ s : StatementTree, Forward (do
      let _ ← Reader.mark ";"
      Pure.pure s) := fun _ => (mark _).bind fun _ => .pure _
  unfold Reader.statementAfter
  dsimp only
  split
  · exact ((place n).map _).bind hrest
  · exact ((value n).map _).bind hrest
  · exact (placeAfter t n).bind fun _ => (mark _).bind fun _ => (value n).bind fun _ =>
      (Forward.pure _).bind hrest

theorem body (m n : Nat) : Forward (Reader.body m n) := by
  induction n with
  | zero => exact (next _).bind fun t => .unexpected t
  | succ n ih =>
    refine (next _).bind fun t => ?_
    split
    · rename_i h
      exact (terminatorAfter? h).bind fun _ => .pure _
    · exact (statementAfter t m).bind fun _ => ih.bind fun _ => .pure _

theorem blockAfter (label : Token) (n : Nat) : Forward (Reader.blockAfter label n) := by
  unfold Reader.blockAfter
  split
  · exact (mark _).bind fun _ => (mark _).bind fun _ => (body n n).bind fun _ => (mark _).bind fun _ =>
      .pure _
  · exact .unexpected label

theorem moreBlocks (m n : Nat) : Forward (Reader.moreBlocks m n) := by
  induction n with
  | zero => exact .pure _
  | succ n ih =>
    refine (next _).bind fun t => ?_
    split
    · exact .pure _
    · exact (blockAfter t m).bind fun _ => ih.bind fun _ => .pure _

theorem declsAndBlocks (m n : Nat) : Forward (Reader.declsAndBlocks m n) := by
  induction n with
  | zero => exact .pure _
  | succ n ih =>
    refine (next _).bind fun t => ?_
    split
    · exact (typedName m).bind fun _ => (mark _).bind fun _ => ih.bind fun _ => .pure _
    · exact (blockAfter t m).bind fun _ => (moreBlocks m m).bind fun _ => .pure _

theorem result (n : Nat) : Forward (Reader.result n) := by
  refine (next _).bind fun t => ?_
  split
  · exact (typedName n).bind fun _ => (mark _).bind fun _ => .pure _
  · exact (typeAfter t n).map _

end Forward

/-! ## 3. Functions -/

end Reader

/-- What is known of a function that was read: it has a block, and its declarations are what they stand
    for. -/
structure FunctionTree.Shaped (f : FunctionTree) : Prop where
  blocks : f.blocks ≠ []
  params : ∀ d ∈ f.params, d.kind = .param
  locals : ∀ d ∈ f.locals, d.kind ≠ .param

namespace Reader

theorem declKind?_ne_param {k : TokenKind} {kind : RootKind} (h : declKind? k = some kind) :
    k ≠ .ending ∧ kind ≠ .param := by
  unfold declKind? at h
  split at h <;> cases h
  all_goals
    constructor
    · rintro ⟨⟩
    · rintro ⟨⟩

/-- From a text shorter than the bound, the reader gives nothing back and reads something with the
    property, or it refuses the text. -/
structure Yields (n : Nat) (r : Reader α) (P : α → Prop) : Prop where
  reads : ∀ ⦃c a c'⦄, c.rest.length < n → r c = .ok (a, c') → c'.rest.length ≤ c.rest.length ∧ P a
  refuses : ∀ ⦃c e⦄, c.rest.length < n → r c = .error e → e.isRefusal = true

variable {n : Nat} {P : α → Prop} {Q : β → Prop}

theorem Forward.yields {r : Reader α} (hr : Forward r) : Yields n r fun _ => True :=
  ⟨fun _ _ _ _ h => ⟨hr.shrinks h, trivial⟩, fun _ _ _ h => hr.refuses h⟩

theorem Yields.pure {a : α} (h : P a) : Yields n (Pure.pure a) P where
  reads c a' c' _ he := by
    cases he
    exact ⟨Nat.le_refl _, h⟩
  refuses c e _ he := nomatch he

theorem Yields.bind {r : Reader α} {k : α → Reader β} (hr : Yields n r P)
    (hk : ∀ a, P a → Yields n (k a) Q) : Yields n (r >>= k) Q where
  reads c b c' hn h := by
    obtain ⟨a, d, ha, hb⟩ := bind_eq_ok.mp h
    obtain ⟨hle, hp⟩ := hr.reads hn ha
    obtain ⟨hle', hq⟩ := (hk a hp).reads (Nat.lt_of_le_of_lt hle hn) hb
    exact ⟨Nat.le_trans hle' hle, hq⟩
  refuses c e hn h := by
    rcases bind_eq_error h with h | ⟨a, d, ha, hb⟩
    · exact hr.refuses hn h
    · obtain ⟨hle, hp⟩ := hr.reads hn ha
      exact (hk a hp).refuses (Nat.lt_of_le_of_lt hle hn) hb

theorem Yields.map {r : Reader α} {g : α → β} (hr : Yields n r P) (hg : ∀ a, P a → Q (g a)) :
    Yields n (g <$> r) Q :=
  hr.bind fun a ha => .pure (hg a ha)

/-- A reader of whose result nothing is needed. -/
theorem Forward.andThen {r : Reader α} {k : α → Reader β} (hr : Forward r)
    (hk : ∀ a, Yields n (k a) Q) : Yields n (r >>= k) Q :=
  hr.yields.bind fun a _ => hk a

theorem Yields.unexpected (t : Token) : Yields n (Reader.unexpected t) P :=
  ⟨fun _ _ _ _ h => (nomatch h), fun _ _ _ h => (Forward.unexpected t).refuses h⟩

/-- **A function that is read has a block**: as long as the text is shorter than the bound, the
    declarations do not use the bound up. -/
theorem declsAndBlocks_yields (m n : Nat) :
    Yields n (declsAndBlocks m n) fun x => x.2 ≠ [] ∧ ∀ d ∈ x.1, d.kind ≠ .param := by
  have hforward := Forward.declsAndBlocks m n
  refine ⟨fun c x c' hn h => ⟨hforward.shrinks h, ?_⟩, fun c e _ h => hforward.refuses h⟩
  clear hforward
  induction n generalizing c x with
  | zero => exact absurd hn (Nat.not_lt_zero _)
  | succ n ih =>
    obtain ⟨t, c₁, ht, h⟩ := bind_eq_ok.mp h
    cases hkind : declKind? t.kind with
    | some kind =>
      rw [hkind] at h
      obtain ⟨hne, hparam⟩ := declKind?_ne_param hkind
      obtain ⟨y, c₂, hy, h⟩ := bind_eq_ok.mp h
      obtain ⟨_, c₃, hmark, h⟩ := bind_eq_ok.mp h
      obtain ⟨z, c₄, hz, h⟩ := bind_eq_ok.mp h
      cases h
      -- the word takes a character, what follows gives none back
      have h₁ : c₁.rest.length < c.rest.length := (Cursor.next_eq_ok ht).2 rfl hne
      have h₂ := (Forward.typedName m).shrinks hy
      have h₃ := (Forward.mark _).shrinks hmark
      obtain ⟨hblocks, hdecls⟩ := ih c₃ z (by omega) hz
      refine ⟨hblocks, fun d hd => ?_⟩
      rcases List.mem_cons.mp hd with rfl | hd
      · exact hparam
      · exact hdecls d hd
    | none =>
      rw [hkind] at h
      obtain ⟨b, _, _, h⟩ := bind_eq_ok.mp h
      obtain ⟨more, _, _, h⟩ := bind_eq_ok.mp h
      cases h
      exact ⟨List.cons_ne_nil _ _, fun d hd => absurd hd List.not_mem_nil⟩

theorem function_yields (pos : Position) (n : Nat) :
    Yields n (function pos n) FunctionTree.Shaped := by
  refine Forward.name.andThen fun f => (Forward.mark _).andThen fun _ =>
    (Forward.commaList (.typedName n) _ _ _ n).andThen fun params => (Forward.next _).andThen fun t => ?_
  have hrest : ∀ res, Yields n (do
      let x ← declsAndBlocks n n
      Pure.pure (⟨pos, f, params.map fun x => ⟨.param, x.1, x.2⟩, res, x.1, x.2⟩ : FunctionTree))
      FunctionTree.Shaped := by
    refine fun res => (declsAndBlocks_yields n n).bind fun x hx => .pure ⟨hx.1, fun d hd => ?_, hx.2⟩
    obtain ⟨_, _, rfl⟩ := List.mem_map.mp hd
    rfl
  dsimp only
  split
  · exact (Forward.result n).andThen fun r => (Forward.mark _).andThen fun _ =>
      (Forward.pure _).andThen hrest
  · split
    · exact (Forward.pure _).andThen hrest
    · exact (Forward.unexpected t).andThen hrest

end Reader

/-- What is known of an item that was read. -/
def Item.Shaped : Item → Prop
  | .function f => f.Shaped
  | .scalarType _ => True
  | .ownedType _ => True
  | .struct _ _ _ => True

namespace Reader

theorem struct_yields (copy : Bool) (n : Nat) : Yields n (struct copy n) Item.Shaped :=
  Forward.name.andThen fun _ => (Forward.mark _).andThen fun _ =>
    (Forward.commaList (.typedName n) _ _ _ n).andThen fun _ => .pure trivial

theorem itemAfter_yields (t : Token) (n : Nat) : Yields n (itemAfter t n) Item.Shaped := by
  unfold itemAfter
  split
  · refine Forward.name.andThen fun x => (Forward.mark _).andThen fun _ =>
      (Forward.next _).andThen fun t => ?_
    have hrest : ∀ item : Item, item.Shaped → Yields n (do
        let _ ← mark ";"
        Pure.pure item) Item.Shaped := fun _ h => (Forward.mark _).andThen fun _ => .pure h
    dsimp only
    split
    · exact (Yields.pure trivial).bind hrest
    · exact (Yields.pure trivial).bind hrest
    · exact (Yields.unexpected t).bind hrest
  · exact struct_yields false n
  · refine (Forward.next _).andThen fun t => ?_
    split
    · exact struct_yields true n
    · exact .unexpected t
  · exact (function_yields t.pos n).map fun f hf => hf
  · exact .unexpected t

theorem items_yields (m n : Nat) : Yields m (items m n) fun is => ∀ i ∈ is, i.Shaped := by
  induction n with
  | zero => exact .pure fun i hi => absurd hi List.not_mem_nil
  | succ n ih =>
    refine (Forward.next _).andThen fun t => ?_
    split
    · exact .pure fun i hi => absurd hi List.not_mem_nil
    · refine (itemAfter_yields t m).bind fun item hitem => ih.bind fun more hmore => .pure ?_
      intro i hi
      rcases List.mem_cons.mp hi with rfl | hi
      · exact hitem
      · exact hmore i hi

end Reader

theorem readAll_eq (text : String) : Item.readAll text =
    (Reader.items (text.length + 1) (text.length + 1) { rest := text.toList }).map Prod.fst := rfl

theorem length_lt_bound (text : String) : text.toList.length < text.length + 1 := by
  rw [String.length_toList]
  exact Nat.lt_succ_self _

/-- **Every function of a text that can be read has a block.** -/
theorem shaped_of_readAll {text : String} {is : List Item} (h : Item.readAll text = .ok is) :
    ∀ i ∈ is, i.Shaped := by
  rw [readAll_eq] at h
  cases hr : Reader.items (text.length + 1) (text.length + 1) { rest := text.toList } with
  | error e =>
    rw [hr] at h
    cases h
  | ok x =>
    rw [hr] at h
    cases h
    exact ((Reader.items_yields _ _).reads (length_lt_bound text) hr).2

/-- **A text that cannot be read is refused.** -/
theorem refusal_of_readAll {text : String} {e : Error} (h : Item.readAll text = .error e) :
    e.isRefusal = true := by
  rw [readAll_eq] at h
  cases hr : Reader.items (text.length + 1) (text.length + 1) { rest := text.toList } with
  | error e =>
    rw [hr] at h
    cases h
    exact (Reader.items_yields _ _).refuses (length_lt_bound text) hr
  | ok x =>
    rw [hr] at h
    cases h

end Ownership.Source
