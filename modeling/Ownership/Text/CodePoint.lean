/-!
# Code points

A text may hold code points that are no characters: the halves of a surrogate pair, each standing on
its own. Such a text is a list of code points.
-/

namespace Ownership.Text

/-- A number from 0 to `0x10ffff`. -/
abbrev CodePoint := Fin 0x110000

/-- The code point of a character. -/
def codeOf (c : Char) : CodePoint :=
  ⟨c.toNat, by
    have hc := c.valid
    simp only [UInt32.isValidChar, Nat.isValidChar] at hc
    show c.val.toNat < 0x110000
    omega⟩

/-- The character of a code point, unless it is half a pair. -/
def charOf? (c : CodePoint) : Option Char :=
  if c.val.isValidChar then some (Char.ofNat c.val) else none

/-- The code points of a text. -/
def codes (s : String) : List CodePoint := s.toList.map codeOf

/-- The text of the code points, if all of them are characters. -/
def decode? (cs : List CodePoint) : Option String := (cs.mapM charOf?).map String.ofList

/-- The text of the code points, with the replacement character for each half of a pair. -/
def plainText (cs : List CodePoint) : String :=
  String.ofList (cs.map fun c => (charOf? c).getD (Char.ofNat 0xfffd))

theorem charOf?_eq_some {c : CodePoint} {ch : Char} : charOf? c = some ch ↔ c = codeOf ch := by
  constructor
  · intro h
    obtain ⟨hvalid, h⟩ := Option.ite_none_right_eq_some.mp h
    have hchar : Char.ofNat c.val = Char.ofNatAux c.val hvalid := dif_pos hvalid
    exact Fin.ext (congrArg Char.toNat (hchar.symm.trans (Option.some.inj h)))
  · rintro rfl
    exact (if_pos ch.valid).trans (congrArg some (Char.ofNat_toNat ch))

theorem mapM_charOf?_eq_some {cs : List CodePoint} {chs : List Char} :
    cs.mapM charOf? = some chs ↔ cs = chs.map codeOf := by
  induction cs generalizing chs with
  | nil => cases chs <;> simp
  | cons c cs ih => cases chs <;> simp [List.mapM_cons, charOf?_eq_some, ih, Option.bind_eq_some_iff]

/-- A text is read back from its code points, and from no others. -/
theorem decode?_eq_some {cs : List CodePoint} {s : String} : decode? cs = some s ↔ cs = codes s := by
  rw [decode?, Option.map_eq_some_iff]
  constructor
  · rintro ⟨chs, hchs, rfl⟩
    rw [mapM_charOf?_eq_some.mp hchs, codes, String.toList_ofList]
  · intro h
    exact ⟨s.toList, mapM_charOf?_eq_some.mpr h, String.ofList_toList⟩

theorem codes_inj {s t : String} : codes s = codes t ↔ s = t := by
  constructor
  · intro h
    have hread : some s = some t := by
      rw [← decode?_eq_some.mpr h, decode?_eq_some.mpr rfl]
    exact Option.some.inj hread
  · exact congrArg codes

theorem plainText_codes (s : String) : plainText (codes s) = s := by
  have hchar : ∀ c, (charOf? (codeOf c)).getD (Char.ofNat 0xfffd) = c := fun c => by
    rw [charOf?_eq_some.mpr rfl, Option.getD_some]
  rw [plainText, codes, List.map_map]
  simp [Function.comp_def, hchar]

/-- The code point of a number, if there is one. -/
def codePoint? (n : Nat) : Option CodePoint := if h : n < 0x110000 then some ⟨n, h⟩ else none

end Ownership.Text
