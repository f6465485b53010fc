import Ownership.Function.Sketch
import Ownership.Proofs.Accepted

/-!
# What is read off a sketch

Validation of a sketch looks at things of which nothing is known beforehand. Where it hands out a
function, everything it read is in order: the function would have been accepted had it come as a
draft of its own (`Sketch.validate_draft`). The lemmas read the success of one check after the other.
-/

namespace Ownership

/-! ## 1. Steps that succeed -/

section Success

variable {ε ε' α β : Type}

theorem mapError_eq_ok {k : ε → ε'} {x : Except ε α} {a : α} : x.mapError k = .ok a ↔ x = .ok a := by
  cases x with
  | error e => exact ⟨fun h => (nomatch h), fun h => (nomatch h)⟩
  | ok b => exact ⟨fun h => congrArg _ (Except.ok.inj h), fun h => congrArg _ (Except.ok.inj h)⟩

theorem attempt_eq_ok {x : Except Raised α} {a : α} : attempt x = .ok a ↔ x = .ok a := mapError_eq_ok

theorem complain_ne_ok {text : Except Raised String} {a : α} : complain text ≠ .ok a := by
  intro h
  obtain ⟨_, _, h⟩ := bind_eq_ok.mp h
  cases h

/-- All of a list is there if each of its members is. -/
theorem forall₂_of_mapM_some {k : α → Option β} {xs : List α} {ys : List β} (h : xs.mapM k = some ys) :
    List.Forall₂ (fun x y => k x = some y) xs ys := by
  induction xs generalizing ys with
  | nil =>
    cases h
    exact .nil
  | cons x xs ih =>
    rw [List.mapM_cons] at h
    obtain ⟨y, hy, h⟩ := Option.bind_eq_some_iff.mp h
    obtain ⟨zs, hzs, h⟩ := Option.bind_eq_some_iff.mp h
    cases h
    exact .cons hy (ih hzs)

/-- What is read off a list of things, if all of it is there. -/
theorem exists_of_mapM_id {k : α → Except ε (Option β)} {xs : List α} {os : List (Option β)} {ys : List β}
    (h : xs.mapM k = .ok os) (hs : os.mapM id = some ys) :
    List.Forall₂ (fun x y => k x = .ok (some y)) xs ys := by
  induction xs generalizing os ys with
  | nil =>
    cases h
    cases hs
    exact .nil
  | cons x xs ih =>
    rw [List.mapM_cons] at h
    obtain ⟨o, ho, h⟩ := bind_eq_ok.mp h
    obtain ⟨rest, hrest, h⟩ := bind_eq_ok.mp h
    cases h
    rw [List.mapM_cons] at hs
    obtain ⟨y, hy, hs⟩ := Option.bind_eq_some_iff.mp hs
    obtain ⟨zs, hzs, hs⟩ := Option.bind_eq_some_iff.mp hs
    cases hs
    replace hy : o = some y := hy
    exact .cons (hy ▸ ho) (ih hrest hzs)

end Success

/-! ## 2. Things -/

namespace Thing

theorem ofText_inj {s t : String} : ofText s = ofText t ↔ s = t := by
  rw [ofText, ofText, Thing.datum.injEq, Literal.text.injEq, Text.codes_inj]

theorem text?_eq_some {x : Thing} {s : String} : x.text? = some s ↔ x = ofText s := by
  unfold text?
  split
  · rw [Text.decode?_eq_some, ofText]
    simp
  · rename_i hnot
    refine ⟨fun h => (nomatch h), fun h => ?_⟩
    exact absurd h (hnot _)

section Places

variable {ls : Locals}

theorem find_eq_some {x : Thing} {d : Decl} (h : ls.find x = .ok (some d)) :
    ∃ name, x = ofText name ∧ ls.get? name = some d := by
  obtain ⟨_, _, h⟩ := bind_eq_ok.mp h
  obtain ⟨name, hname, hd⟩ := Option.bind_eq_some_iff.mp (Except.ok.inj h)
  exact ⟨name, text?_eq_some.mp hname, hd⟩

/-- The variables of a path are those of the things it is read off. -/
theorem indexVars_of_path? {steps : List Thing} {path : Path} (h : steps.mapM step? = some path)
    {r : Root} {v : String} (hv : v ∈ Place.indexVars ⟨r, path⟩) :
    ofText v ∈ steps.filterMap indexVar? := by
  obtain ⟨s, hs, hvar⟩ := List.mem_filterMap.mp hv
  obtain ⟨x, hx, hstep⟩ := exists_of_forall₂ (forall₂_of_mapM_some h) hs
  refine List.mem_filterMap.mpr ⟨x, hx, ?_⟩
  unfold step? at hstep
  split at hstep
  · obtain ⟨_, _, rfl⟩ := Option.map_eq_some_iff.mp hstep
    cases hvar
  · rename_i kind value var
    obtain ⟨_, _, hstep⟩ := Option.bind_eq_some_iff.mp hstep
    obtain ⟨name, hname, hstep⟩ := Option.bind_eq_some_iff.mp hstep
    cases hstep
    replace hvar : name = some v := hvar
    subst hvar
    unfold name? at hname
    split at hname
    · cases hname
    · obtain ⟨_, hx, hy⟩ := Option.map_eq_some_iff.mp hname
      cases hy
      rw [text?_eq_some.mp hx]
      rfl
  · cases hstep
    cases hvar
  · cases hstep

/-- The declared root is found under its own name. -/
theorem get?_of_isRoot {base name : Thing} {d : Decl} (hname : base.part "name" = .ok name)
    (hd : ls.find name = .ok (some d)) (hroot : base.isRoot d.root = true) :
    ls.get? d.root.name = some d := by
  unfold isRoot at hroot
  split at hroot
  · rename_i k cs
    obtain ⟨_, hcs⟩ := (Bool.and_eq_true _ _).mp hroot
    cases hname
    obtain ⟨key, hkey, hget⟩ := find_eq_some hd
    have hcodes : cs = Text.codes key := Literal.text.inj (Thing.datum.inj hkey)
    rw [beq_iff_eq, hcodes, Text.codes_inj] at hcs
    exact hcs ▸ hget
  · cases hroot

theorem covers_of_toPlace {x : Thing} {p : Place} (h : x.toPlace ls = .ok (some p)) : ls.Covers p := by
  unfold toPlace at h
  split at h
  · rename_i base steps
    obtain ⟨name, hname, h⟩ := bind_eq_ok.mp h
    obtain ⟨found, hfound, h⟩ := bind_eq_ok.mp h
    have hname := attempt_eq_ok.mp hname
    have hfound := attempt_eq_ok.mp hfound
    cases found with
    | none => exact absurd h complain_ne_ok
    | some d =>
      dsimp only at h
      split_ifs at h with hroot
      · obtain ⟨items, hitems, h⟩ := bind_eq_ok.mp h
        obtain ⟨_, hvars, h⟩ := bind_eq_ok.mp h
        obtain ⟨path, hpath, rfl⟩ := Option.map_eq_some_iff.mp (Except.ok.inj h)
        refine ⟨⟨d, get?_of_isRoot hname hfound hroot, rfl⟩, fun v hv => ?_⟩
        unfold path? at hpath
        split at hpath
        · cases attempt_eq_ok.mp hitems
          have hcheck := ok_of_forM hvars _ (indexVars_of_path? hpath hv)
          obtain ⟨o, ho, hcheck⟩ := bind_eq_ok.mp hcheck
          split at hcheck
          · obtain ⟨key, hkey, hget⟩ := find_eq_some (attempt_eq_ok.mp ho)
            exact ⟨_, ofText_inj.mp hkey ▸ hget⟩
          · exact absurd hcheck complain_ne_ok
        · cases hpath
      · exact absurd h complain_ne_ok
  · exact absurd h complain_ne_ok

theorem covers_of_toOperand {x : Thing} {o : Operand} (h : x.toOperand ls = .ok (some o)) :
    ∀ p ∈ o.place?.toList, ls.Covers p := by
  unfold toOperand at h
  split at h
  · cases h
    exact fun p hp => nomatch hp
  · obtain ⟨place, hplace, h⟩ := bind_eq_ok.mp h
    obtain ⟨p, rfl, rfl⟩ := Option.map_eq_some_iff.mp (Except.ok.inj h)
    exact fun q hq => List.mem_singleton.mp hq ▸ covers_of_toPlace hplace
  · obtain ⟨place, hplace, h⟩ := bind_eq_ok.mp h
    obtain ⟨p, rfl, rfl⟩ := Option.map_eq_some_iff.mp (Except.ok.inj h)
    exact fun q hq => List.mem_singleton.mp hq ▸ covers_of_toPlace hplace
  · obtain ⟨_, _, h⟩ := bind_eq_ok.mp h
    obtain ⟨place, hplace, h⟩ := bind_eq_ok.mp h
    obtain ⟨p, rfl, rfl⟩ := Option.map_eq_some_iff.mp (Except.ok.inj h)
    exact fun q hq => List.mem_singleton.mp hq ▸ covers_of_toPlace hplace
  · exact absurd h complain_ne_ok

/-- The name of a field that is read off a thing, and its operand. -/
theorem toField_eq_some {x : Thing × Thing} {f : String × Operand} (h : toField ls x = .ok (some f)) :
    x.1 = ofText f.1 ∧ x.2.toOperand ls = .ok (some f.2) := by
  obtain ⟨operand, hoperand, h⟩ := bind_eq_ok.mp h
  obtain ⟨name, hname, h⟩ := Option.bind_eq_some_iff.mp (Except.ok.inj h)
  obtain ⟨o, rfl, h⟩ := Option.bind_eq_some_iff.mp h
  cases h
  exact ⟨text?_eq_some.mp hname, hoperand⟩

/-- Things that are told apart have different names. -/
theorem nodup_of_allDistinct {names : List String} (h : allDistinct (names.map ofText) = true) :
    names.Nodup := by
  induction names with
  | nil => exact List.nodup_nil
  | cons n names ih =>
    rw [List.map_cons, allDistinct, Bool.and_eq_true] at h
    refine List.nodup_cons.mpr ⟨fun hn => ?_, ih h.2⟩
    have hnot : ∀ x ∈ names.map ofText, same (ofText n) x = false := by
      simpa using h.1
    have hsame : same (ofText n) (ofText n) = true := by
      simp [same, ofText, sameDatum]
    rw [hnot _ (List.mem_map_of_mem hn)] at hsame
    cases hsame

theorem covers_of_toValue {x : Thing} {v : Value} (h : x.toValue ls = .ok (some v)) :
    (∀ p ∈ v.places, ls.Covers p) ∧ v.fieldNames.Nodup := by
  unfold toValue at h
  split at h
  · cases h
    exact ⟨fun p hp => (nomatch hp), List.nodup_nil⟩
  · cases h
    exact ⟨fun p hp => (nomatch hp), List.nodup_nil⟩
  · obtain ⟨operand, hoperand, h⟩ := bind_eq_ok.mp h
    obtain ⟨o, rfl, rfl⟩ := Option.map_eq_some_iff.mp (Except.ok.inj h)
    refine ⟨covers_of_operands fun o' ho' => ?_, List.nodup_nil⟩
    exact List.mem_singleton.mp ho' ▸ covers_of_toOperand hoperand
  · obtain ⟨place, hplace, h⟩ := bind_eq_ok.mp h
    obtain ⟨p, rfl, rfl⟩ := Option.map_eq_some_iff.mp (Except.ok.inj h)
    exact ⟨fun q hq => List.mem_singleton.mp hq ▸ covers_of_toPlace hplace, List.nodup_nil⟩
  · obtain ⟨items, _, h⟩ := bind_eq_ok.mp h
    obtain ⟨operands, hoperands, h⟩ := bind_eq_ok.mp h
    obtain ⟨os, hos, rfl⟩ := Option.map_eq_some_iff.mp (Except.ok.inj h)
    refine ⟨covers_of_operands fun o ho => ?_, List.nodup_nil⟩
    obtain ⟨_, _, hx⟩ := exists_of_forall₂ (exists_of_mapM_id hoperands hos) ho
    exact covers_of_toOperand hx
  · obtain ⟨items, _, h⟩ := bind_eq_ok.mp h
    obtain ⟨pairs, _, h⟩ := bind_eq_ok.mp h
    obtain ⟨_, _, h⟩ := bind_eq_ok.mp h
    split_ifs at h with hdistinct
    · obtain ⟨operands, hoperands, h⟩ := bind_eq_ok.mp h
      obtain ⟨fs, hfs, rfl⟩ := Option.map_eq_some_iff.mp (Except.ok.inj h)
      have hall := exists_of_mapM_id hoperands hfs
      refine ⟨covers_of_operands fun o ho => ?_, nodup_of_allDistinct ?_⟩
      · obtain ⟨f, hf, rfl⟩ := List.mem_map.mp ho
        obtain ⟨x, _, hx⟩ := exists_of_forall₂ hall hf
        exact covers_of_toOperand (toField_eq_some hx).2
      · have hnames : pairs.map Prod.fst = (fs.map Prod.fst).map ofText := by
          rw [List.map_map]
          refine eq_map_of_forall₂ (List.forall₂_map_left_iff.mpr ?_)
          exact hall.imp fun _ _ hx => (toField_eq_some hx).1
        exact hnames ▸ hdistinct
    · exact absurd h complain_ne_ok
  · exact absurd h complain_ne_ok

theorem covers_of_toStatement {x : Thing} {s : Statement} (h : x.toStatement ls = .ok (some s)) :
    (∀ p ∈ s.places, ls.Covers p) ∧ ∀ v ∈ s.value?, v.fieldNames.Nodup := by
  have hnone : ∀ v ∈ (none : Option Value), v.fieldNames.Nodup := fun v hv =>
    absurd hv (Option.not_mem_none v)
  unfold toStatement at h
  split at h
  · obtain ⟨dest, hdest, h⟩ := bind_eq_ok.mp h
    obtain ⟨value, hvalue, h⟩ := bind_eq_ok.mp h
    obtain ⟨d, rfl, hs⟩ := Option.bind_eq_some_iff.mp (Except.ok.inj h)
    obtain ⟨v, rfl, hs'⟩ := Option.bind_eq_some_iff.mp hs
    cases hs'
    obtain ⟨hcov, hnames⟩ := covers_of_toValue hvalue
    refine ⟨fun p hp => ?_, fun w hw => Option.some.inj hw ▸ hnames⟩
    simp only [Statement.places, List.append_nil] at hp
    rcases List.mem_append.mp hp with hp | hp
    · exact List.mem_singleton.mp hp ▸ covers_of_toPlace hdest
    · exact hcov p hp
  · obtain ⟨_, _, h⟩ := bind_eq_ok.mp h
    obtain ⟨dest, hdest, h⟩ := bind_eq_ok.mp h
    obtain ⟨place, hplace, h⟩ := bind_eq_ok.mp h
    obtain ⟨d, rfl, hs⟩ := Option.bind_eq_some_iff.mp (Except.ok.inj h)
    obtain ⟨p, rfl, hs'⟩ := Option.bind_eq_some_iff.mp hs
    cases hs'
    refine ⟨fun q hq => ?_, hnone⟩
    rcases List.mem_cons.mp hq with rfl | hq
    · exact covers_of_toPlace hdest
    · exact List.mem_singleton.mp hq ▸ covers_of_toPlace hplace
  · obtain ⟨dest, hdest, h⟩ := bind_eq_ok.mp h
    obtain ⟨src, hsrc, h⟩ := bind_eq_ok.mp h
    obtain ⟨d, rfl, hs⟩ := Option.bind_eq_some_iff.mp (Except.ok.inj h)
    obtain ⟨p, rfl, hs'⟩ := Option.bind_eq_some_iff.mp hs
    cases hs'
    refine ⟨fun q hq => ?_, hnone⟩
    rcases List.mem_cons.mp hq with rfl | hq
    · exact covers_of_toPlace hdest
    · exact List.mem_singleton.mp hq ▸ covers_of_toPlace hsrc
  · obtain ⟨place, hplace, h⟩ := bind_eq_ok.mp h
    obtain ⟨p, rfl, rfl⟩ := Option.map_eq_some_iff.mp (Except.ok.inj h)
    exact ⟨fun q hq => List.mem_singleton.mp hq ▸ covers_of_toPlace hplace, hnone⟩
  · obtain ⟨value, hvalue, h⟩ := bind_eq_ok.mp h
    obtain ⟨v, rfl, rfl⟩ := Option.map_eq_some_iff.mp (Except.ok.inj h)
    obtain ⟨hcov, hnames⟩ := covers_of_toValue hvalue
    refine ⟨fun p hp => ?_, fun w hw => Option.some.inj hw ▸ hnames⟩
    simp only [Statement.places, List.append_nil] at hp
    exact hcov p hp
  · exact absurd h complain_ne_ok

end Places

theorem lt_of_toTarget {x : Thing} {count t : Nat} (h : x.toTarget count = .ok t) : t < count := by
  unfold toTarget at h
  split at h
  · split_ifs at h with hlt
    · cases h
      exact hlt
    · exact absurd h complain_ne_ok
  · exact absurd h complain_ne_ok

theorem covers_of_toTerminator {ls : Locals} {x : Thing} {count b : Nat} {t : Terminator}
    (h : x.toTerminator ls count b = .ok (some t)) :
    (∀ p ∈ t.places, ls.Covers p) ∧ ∀ u ∈ t.targets, u < count := by
  unfold toTerminator at h
  split at h
  · exact absurd h complain_ne_ok
  · obtain ⟨target, htarget, h⟩ := bind_eq_ok.mp h
    cases h
    refine ⟨List.forall_mem_nil _, fun u hu => ?_⟩
    exact List.mem_singleton.mp hu ▸ lt_of_toTarget htarget
  · obtain ⟨yes, hyes, h⟩ := bind_eq_ok.mp h
    obtain ⟨no, hno, h⟩ := bind_eq_ok.mp h
    obtain ⟨cond, hcond, h⟩ := bind_eq_ok.mp h
    obtain ⟨c, rfl, rfl⟩ := Option.map_eq_some_iff.mp (Except.ok.inj h)
    refine ⟨covers_of_toOperand hcond, fun u hu => ?_⟩
    rw [Terminator.targets, List.mem_cons, List.mem_singleton] at hu
    rcases hu with rfl | rfl
    · exact lt_of_toTarget hyes
    · exact lt_of_toTarget hno
  · cases h
    exact ⟨List.forall_mem_nil _, List.forall_mem_nil _⟩
  · cases h
    exact ⟨List.forall_mem_nil _, List.forall_mem_nil _⟩
  · exact absurd h complain_ne_ok

end Thing

/-! ## 3. Sketches -/

namespace Sketch

variable {s : Sketch} {types : TypeTable}

theorem validateBlock_eq_some {b : Nat} {raw : SketchBlock} {blk : Block}
    (h : s.validateBlock b raw = .ok (some blk)) :
    (∀ x ∈ blk.statements, (∀ p ∈ x.places, s.locals.Covers p) ∧ ∀ v ∈ x.value?, v.fieldNames.Nodup) ∧
      (∀ p ∈ blk.terminator.places, s.locals.Covers p) ∧
        ∀ t ∈ blk.terminator.targets, t < s.blocks.length := by
  obtain ⟨os, hos, h⟩ := bind_eq_ok.mp h
  obtain ⟨ot, hot, h⟩ := bind_eq_ok.mp h
  obtain ⟨statements, hstatements, h⟩ := Option.bind_eq_some_iff.mp (Except.ok.inj h)
  obtain ⟨terminator, rfl, h⟩ := Option.bind_eq_some_iff.mp h
  cases h
  refine ⟨fun x hx => ?_, Thing.covers_of_toTerminator (mapError_eq_ok.mp hot)⟩
  obtain ⟨_, _, hread⟩ := exists_of_forall₂ (exists_of_mapM_id hos hstatements) hx
  exact Thing.covers_of_toStatement (mapError_eq_ok.mp hread)

/-- A head has as many blocks as its function. -/
theorem checkHead_eq {d d' : Draft} (hp : d.params = d'.params) (hr : d.result = d'.result)
    (hl : d.locals = d'.locals) (hb : d.blocks.length = d'.blocks.length) :
    d.checkHead types = d'.checkHead types := by
  have hempty : d.blocks.isEmpty = d'.blocks.isEmpty := by
    rw [Bool.eq_iff_iff, List.isEmpty_iff_length_eq_zero, List.isEmpty_iff_length_eq_zero, hb]
  simp only [Draft.checkHead, Draft.checkLocals, Draft.checkListed, Draft.checkResult, hp, hr, hl, hempty]

/-- **What is read off a sketch is accepted.** -/
theorem validate_draft {f : Function} (h : s.validate types = .ok (some f)) :
    f.draft.validate types = .ok f := by
  obtain ⟨_, hhead, h⟩ := bind_eq_ok.mp h
  obtain ⟨os, hos, h⟩ := bind_eq_ok.mp h
  obtain ⟨blocks, hblocks, rfl⟩ := Option.map_eq_some_iff.mp (Except.ok.inj h)
  have hall := exists_of_mapM_id hos hblocks
  have hlen : s.blocks.length = blocks.length := by
    rw [← hall.length_eq, List.length_zipIdx]
  have hread : ∀ b ∈ blocks, ∃ i raw, s.validateBlock i raw = .ok (some b) := fun b hb => by
    obtain ⟨x, _, hx⟩ := exists_of_forall₂ hall hb
    exact ⟨x.2, x.1, hx⟩
  refine Function.validate_draft_iff.mpr ⟨rfl, ?_, fun p hp => ?_, fun b hb => ?_, fun b hb x hx => ?_⟩
  · rw [← located_eq_ok.mp (mapError_eq_ok.mp hhead)]
    refine checkHead_eq rfl rfl rfl ?_
    simp [Function.draft, Sketch.head, hlen]
  · obtain ⟨b, hb, hp⟩ := Function.mem_places.mp hp
    obtain ⟨i, raw, hblock⟩ := hread b hb
    obtain ⟨hstatements, hplaces, _⟩ := validateBlock_eq_some hblock
    rcases hp with ⟨x, hx, hp⟩ | hp
    · exact (hstatements x hx).1 p hp
    · exact hplaces p hp
  · obtain ⟨i, raw, hblock⟩ := hread b hb
    exact hlen ▸ (validateBlock_eq_some hblock).2.2
  · obtain ⟨i, raw, hblock⟩ := hread b hb
    exact ((validateBlock_eq_some hblock).1 x hx).2

end Sketch

end Ownership
