import FlatScope.Proofs.Run.Initialised
import FlatScope.Proofs.Scope.Agreement
import FlatScope.Proofs.Scope.Inner
import FlatScope.Proofs.Scope.Sound
import FlatScope.Scope.Usage

/-!
# Frames and scopes

A frame *stands* for a scope if every name that is known in the scope is found from the frame on,
and every name that is from outside of the function is found in the outermost frame
(`Store.Stands`). When a function, block or loop is entered, a frame is made that stands for its
scope if the frame around it stands for the scope around it (`Store.Stands.enter`). Stores only grow
(`Store.Later`), so what a frame stands for it stands for from then on.
-/

namespace FlatScope

namespace Store

variable {s t r : Store} {f g : FrameId} {x n : Name} {c : Cell}

/-! ## Growing stores -/

/-- A later store: its variables are constants if they were before. -/
structure Later (s t : Store) : Prop extends s.Extends t where
  consts : ∀ {f x c}, s.cell? f x = some c → ∃ d, t.cell? f x = some d ∧ d.const = c.const

/-- A new frame leaves the cells of the older ones. -/
theorem cell?_newFrame_of_lt {fr : Frame} (h : f < s.frames.size) :
    (s.newFrame fr).2.cell? f x = s.cell? f x := by
  rw [cell?, cell?, getElem?_newFrame_of_lt h]

theorem cell?_newFrame_self {fr : Frame} :
    (s.newFrame fr).2.cell? s.frames.size x = fr.find? x := by
  rw [cell?, getElem?_newFrame_self]
  rfl

/-- Only frames of the store have cells. -/
theorem lt_of_cell? (h : s.cell? f x = some c) : f < s.frames.size := by
  obtain ⟨fr, hf, -⟩ := Option.bind_eq_some_iff.1 h
  exact lt_of_frame hf

namespace Later

theorem refl (s : Store) : s.Later s := ⟨.refl s, fun h => ⟨_, h, rfl⟩⟩

/-- A store later than a later one is later. -/
theorem trans (h : s.Later t) (h' : t.Later r) : s.Later r := by
  refine ⟨h.toExtends.trans h'.toExtends, fun hc => ?_⟩
  obtain ⟨d, hd, hdc⟩ := h.consts hc
  obtain ⟨e, he, hed⟩ := h'.consts hd
  exact ⟨e, he, hed.trans hdc⟩

theorem size_le (h : s.Later t) : s.frames.size ≤ t.frames.size :=
  Nat.le_of_not_lt fun hlt => Nat.lt_irrefl _ (h.lt hlt)

/-- A store with the same frames and closures. -/
theorem of_eq (hf : t.frames = s.frames) (hc : t.closures = s.closures) : s.Later t :=
  ⟨.of_eq hf hc, fun h => ⟨_, by rw [cell?, hf]; exact h, rfl⟩⟩

/-- A write leaves every frame and every cell in place. -/
theorem write (s : Store) (f : FrameId) (n : Name) (v : Value) : s.Later (s.write f n v) := by
  refine ⟨extends_write s f n v, fun {i x c} hc => ?_⟩
  obtain ⟨fr, hi, hx⟩ := Option.bind_eq_some_iff.1 hc
  rw [cell?, getElem?_write, hi]
  split
  · rw [Option.map_some, Option.bind_some]
    by_cases hxn : x = n
    · subst hxn
      exact ⟨_, Frame.find?_update_self hx, rfl⟩
    · exact ⟨c, (Frame.find?_update_ne hxn).trans hx, rfl⟩
  · exact ⟨c, hx, rfl⟩

theorem newFrame (s : Store) (fr : Frame) : s.Later (s.newFrame fr).2 :=
  ⟨extends_newFrame s fr, fun h => ⟨_, (cell?_newFrame_of_lt (lt_of_cell? h)).trans h, rfl⟩⟩

theorem newClosure (s : Store) (c : Closure) : s.Later (s.newClosure c).2 :=
  ⟨extends_newClosure s c, fun h => ⟨_, h, rfl⟩⟩

end Later

namespace Nested

theorem of_eq (h : s.Nested) (hf : t.frames = s.frames) : t.Nested :=
  ⟨hf ▸ h.global, fun hi => h.parents (hf ▸ hi)⟩

theorem write (h : s.Nested) (f : FrameId) (n : Name) (v : Value) : (s.write f n v).Nested where
  global := (extends_write s f n v).lt h.global
  parents {i p fr} hi hp := by
    rw [getElem?_write] at hi
    split at hi
    · obtain ⟨fr₀, hi₀, rfl⟩ := Option.map_eq_some_iff.1 hi
      exact h.parents hi₀ hp
    · exact h.parents hi hp

theorem newFrame (h : s.Nested) {fr : Frame} (hp : ∀ p, fr.parent = some p → p < s.frames.size) :
    (s.newFrame fr).2.Nested where
  global := (extends_newFrame s fr).lt h.global
  parents {i q fr'} hi hq := by
    rcases Nat.lt_or_ge i s.frames.size with hlt | hge
    · rw [getElem?_newFrame_of_lt hlt] at hi
      exact h.parents hi hq
    · have hi' := lt_of_frame hi
      rw [Store.newFrame, Array.size_push] at hi'
      obtain rfl : i = s.frames.size := Nat.le_antisymm (Nat.le_of_lt_succ hi') hge
      rw [getElem?_newFrame_self] at hi
      cases hi
      exact hp q hq

end Nested

/-! ## What a frame stands for -/

/-- From a frame that stands for a scope, the names that are known in the scope are found, in frames
    that were `made` for the scopes of their bindings, and only constants are constant; what is from
    outside of the function is found in the outermost frame. -/
structure Stands (s : Store) (a : Scoping) (made : ScopeId → FrameId → Prop) (sc : ScopeId)
    (f : FrameId) : Prop where
  frame : f < s.frames.size
  known : ∀ {n b}, a.lookup? sc n = some b → ∃ g c, s.Finds n f g ∧ s.cell? g n = some c ∧
    (c.const = true → b.origin.isConst = true) ∧ made b.scope g
  global : ∀ {n}, a.lookup? sc n = none → n ∈ a.globalsUsed → s.Finds n f 0

variable {a : Scoping} {made : ScopeId → FrameId → Prop} {sc id : ScopeId}

/-- A frame stands for its scope in every later store. -/
theorem Stands.later (h : s.Stands a made sc f) (hl : s.Later t) : t.Stands a made sc f where
  frame := hl.lt h.frame
  known hb := by
    obtain ⟨g, c, hg, hc, hconst, hm⟩ := h.known hb
    obtain ⟨d, hd, hdc⟩ := hl.consts hc
    exact ⟨g, d, hl.finds hg, hd, fun h => hconst (hdc ▸ h), hm⟩
  global hn hg := hl.finds (h.global hn hg)

end Store

/-- A frame has the variables of a scope. -/
structure Frame.Opens (fr : Frame) (a : Scoping) (id : ScopeId) : Prop where
  names : ∀ n, fr.has n = true ↔ ∃ b, a.lookup? id n = some b ∧ b.scope = id
  consts : ∀ {n b c}, a.lookup? id n = some b → b.scope = id → fr.find? n = some c →
    c.const = true → b.origin.isConst = true

namespace Store

variable {s : Store} {a : Scoping} {made : ScopeId → FrameId → Prop} {id : ScopeId} {f : FrameId}
  {fr : Frame} {kind : ScopeKind} {parent : Option ScopeId} {names : List Name → Prop}

/-- A frame has the variables of its scope in every later store. -/
theorem opens_later {t : Store} (hl : s.Later t) (h : ∃ fr, s.frames[f]? = some fr ∧
    fr.parent = parent ∧ fr.Opens a id) :
    ∃ fr, t.frames[f]? = some fr ∧ fr.parent = parent ∧ fr.Opens a id := by
  obtain ⟨fr, hf, hp, ho⟩ := h
  obtain ⟨fr', hf', hp', hx⟩ := hl.frames hf
  refine ⟨fr', hf', hp'.trans hp, fun n => by rw [hx, ho.names],
    fun {n b c} hb hs hc hconst => ?_⟩
  obtain ⟨d, hd⟩ := Option.isSome_iff_exists.1 (((ho.names n).2 ⟨b, hb, hs⟩ : fr.has n = true))
  have hcell : s.cell? f n = some d := by rw [cell?, hf]; exact hd
  obtain ⟨e, he, hec⟩ := hl.consts hcell
  rw [cell?, hf', Option.bind_some, hc] at he
  obtain rfl := Option.some.inj he
  exact ho.consts hb hs hd (hec.symm.trans hconst)

/-- A new frame stands for a scope if it has the variables of the scope and is inside of one that
    stands for the scope around. -/
theorem Stands.enter (ha : a.Consistent) (ho : a.Opens id kind parent names) (hfr : fr.Opens a id)
    (hp : fr.parent = some f) (hout : ∀ sc, parent = some sc → s.Stands a made sc f)
    (hroot : parent = none → ∀ n ∈ a.globalsUsed, s.Finds n f 0) (hmade : made id s.frames.size) :
    (s.newFrame fr).2.Stands a made id s.frames.size where
  frame := lt_of_frame getElem?_newFrame_self
  known {n b} hb := by
    by_cases hs : b.scope = id
    · have hhas := (hfr.names n).2 ⟨b, hb, hs⟩
      obtain ⟨c, hc⟩ := Option.isSome_iff_exists.1 hhas
      exact ⟨_, c, .here getElem?_newFrame_self hhas, cell?_newFrame_self.trans hc,
        hfr.consts hb hs hc, hs ▸ hmade⟩
    · cases parent with
      | none => exact absurd (ha.of_lookup?_outermost ho hb) hs
      | some sc =>
        obtain ⟨g, c, hg, hc, hconst, hm⟩ :=
          (hout sc rfl).known ((ha.of_lookup?_inner ho hb).resolve_left hs)
        refine ⟨g, c, .up getElem?_newFrame_self ?_ hp ((extends_newFrame s fr).finds hg),
          (cell?_newFrame_of_lt hg.lt).trans hc, hconst, hm⟩
        rw [Bool.eq_false_iff, Ne, hfr.names]
        rintro ⟨d, hd, hds⟩
        exact hs (Option.some.inj (hb.symm.trans hd) ▸ hds)
  global {n} hn hg := by
    refine .up getElem?_newFrame_self ?_ hp ((extends_newFrame s fr).finds ?_)
    · rw [Bool.eq_false_iff, Ne, hfr.names]
      rintro ⟨d, hd, -⟩
      rw [hn] at hd
      cases hd
    · cases parent with
      | none => exact hroot rfl n hg
      | some sc => exact (hout sc rfl).global (ha.lookup?_outer ho hn) hg

end Store

/-! ## The frames of functions, blocks and loops -/

namespace Frame

variable {fr : Frame} {n : Name} {c : Cell}

/-- The variables of a frame with more cells. -/
theorem find?_append (cells : List (Name × Cell)) :
    ({ fr with cells := fr.cells ++ cells } : Frame).find? n = (fr.find? n).or (cells.lookup n) :=
  List.lookup_append

/-- Every variable of the frame holds something, and may be assigned to. -/
def Filled (fr : Frame) : Prop :=
  ∀ n c, fr.find? n = some c → c.const = false ∧ c.content.isSome = true

theorem filled_nil (parent : Option FrameId) : (Frame.mk parent []).Filled := nofun

theorem Filled.update (h : fr.Filled) {x : Name} {v : Value} : (fr.update x v).Filled := by
  intro n c hc
  by_cases hn : n = x
  · subst hn
    cases hx : fr.find? n with
    | none =>
      rw [find?_update_none hx] at hc
      cases hc
    | some d =>
      rw [find?_update_self hx] at hc
      cases hc
      exact ⟨(h _ _ hx).1, rfl⟩
  · rw [find?_update_ne hn] at hc
    exact h _ _ hc

theorem Filled.add (h : fr.Filled) {x : Name} {v : Value} :
    (fr.add x ⟨some v, false⟩).Filled := by
  intro n c hc
  rw [Frame.add, find?_append, Option.or_eq_some_iff] at hc
  rcases hc with hc | ⟨-, hc⟩
  · exact h _ _ hc
  · have := Table.mem_of_lookup hc
    cases List.mem_singleton.1 this
    exact ⟨rfl, rfl⟩

end Frame

namespace Eval

variable {fr : Frame}

theorem bindParams_filled {ps : List Name} {args : List Value} (h : fr.Filled) :
    (bindParams fr ps args).Filled := by
  induction ps generalizing fr args with
  | nil => exact h
  | cons p ps ih =>
    rw [bindParams]
    refine ih ?_
    split
    · exact h.update
    · exact h.add

theorem bindVars_filled {vars : List (Name × Span)} (h : fr.Filled) :
    (bindVars fr vars).Filled := by
  induction vars generalizing fr with
  | nil => exact h
  | cons v vars ih =>
    rw [bindVars, List.foldl_cons]
    refine ih ?_
    dsimp only
    split
    · exact h
    · exact h.add

/-- The frame with some `let`s and `const`s, none of them initialised. -/
def withLexicals (fr : Frame) (ls : List (Lexical Span)) : Frame :=
  { fr with cells := fr.cells ++ ls.map fun l => (l.name, ⟨none, l.kind == .const⟩) }

/-- `let`s and `const`s of different names can be defined if their names are new. -/
theorem bindLexicals_total {ls : List (Lexical Span)} (hn : (ls.map (·.name)).Nodup)
    (hfr : ∀ l ∈ ls, ¬ fr.has l.name = true) : bindLexicals fr ls = .ok (withLexicals fr ls) := by
  induction ls generalizing fr with
  | nil => simp [bindLexicals, withLexicals, pure, Except.pure]
  | cons l ls ih =>
    rw [List.map_cons, List.nodup_cons] at hn
    have hl := hfr l List.mem_cons_self
    rw [bindLexicals, List.foldlM_cons, Frame.define, if_neg hl]
    change bindLexicals (fr.add l.name ⟨none, l.kind == .const⟩) ls = _
    rw [ih hn.2 fun l' hl' => ?_]
    · simp [withLexicals, Frame.add]
    · have hne : l'.name ≠ l.name := fun he => hn.1 (he ▸ List.mem_map_of_mem hl')
      rw [Frame.has, Frame.find?_add_ne hne]
      exact hfr l' (List.mem_cons_of_mem _ hl')

/-- The frame of a block has the names it had and the lexical names of the block. -/
theorem has_withLexicals {ls : List (Lexical Span)} {n : Name} :
    (withLexicals fr ls).has n = true ↔ fr.has n = true ∨ n ∈ ls.map (·.name) := by
  rw [Frame.has, Frame.has, withLexicals, Frame.find?_append, Option.isSome_or, Bool.or_eq_true,
    Option.isSome_iff_exists (x := List.lookup _ _), Table.exists_lookup, List.map_map]
  rfl

/-- The constants are the `const`s. -/
theorem const_withLexicals {ls : List (Lexical Span)} {n : Name} {c : Cell} (h : fr.Filled)
    (hc : (withLexicals fr ls).find? n = some c) (hconst : c.const = true) :
    ∃ l ∈ ls, l.name = n ∧ l.kind = .const := by
  rw [withLexicals, Frame.find?_append, Option.or_eq_some_iff] at hc
  rcases hc with hc | ⟨-, hc⟩
  · rw [(h _ _ hc).1] at hconst
    cases hconst
  · obtain ⟨l, hl, he⟩ := List.mem_map.1 (Table.mem_of_lookup hc)
    cases he
    exact ⟨l, hl, rfl, eq_of_beq hconst⟩

end Eval

section Opens

variable {a : Scoping} {id sc : ScopeId} {kind : ScopeKind} {parent : Option ScopeId} {fr : Frame}

/-- A frame has the variables of a scope if it has its names, and the constants among them are
    declared as such. -/
theorem Frame.Opens.of_names (ls : List (Lexical Span)) (ha : a.Consistent)
    (ho : a.Opens id kind parent fun names => ∀ n, n ∈ names ↔ fr.has n = true)
    (hl : ∀ l ∈ ls, ∃ b ∈ a.bindings, b.name = l.name ∧ b.scope = id ∧ b.origin.kind? = some l.kind)
    (hconst : ∀ {n c}, fr.find? n = some c → c.const = true → ∃ l ∈ ls, l.name = n ∧
    l.kind = .const) :
    fr.Opens a id := by
  obtain ⟨s, hs, -, -, hnames⟩ := ho
  refine ⟨fun n => (hnames n).symm.trans (Scoping.mem_names_iff ha hs),
    fun {n b c} hb hbs hc hcc => ?_⟩
  obtain ⟨hbm, hbn, -⟩ := ha.of_lookup? hb
  obtain ⟨l, hlm, rfl, hlk⟩ := hconst hc hcc
  obtain ⟨d, hd, hdn, hds, hdk⟩ := hl l hlm
  obtain rfl := ha.eq_of_name hd hbm (hdn.trans hbn.symm) (hds.trans hbs.symm)
  rw [Origin.isConst_of_kind hdk, hlk]
  rfl

/-- The bindings of some `let`s and `const`s. -/
theorem Scoping.DeclaresLexicals.bindings {ls : List (Lexical Mark)}
    (h : a.DeclaresLexicals id ls) : ∀ l ∈ ls.map (Lexical.map Mark.span),
      ∃ b ∈ a.bindings, b.name = l.name ∧ b.scope = id ∧ b.origin.kind? = some l.kind := by
  intro l' hl'
  obtain ⟨l, hl, rfl⟩ := List.mem_map.1 hl'
  obtain ⟨b, hb, hbn, hbs, hbk⟩ := h l hl
  obtain ⟨_, -, hbm⟩ := Option.bind_eq_some_iff.1 hb
  exact ⟨b, (Scoping.mem_of_binding? hbm).1, hbn, hbs, hbk⟩

/-- The frame of a call has the variables of the scope of the function. -/
theorem Eval.callFrame_opens {c : Closure} {b : Block Mark} (ha : a.Consistent)
    (ho : a.OpensFunction id c.params b parent) (hb : c.body = b.map Mark.span)
    (args : List Value) :
    ∃ fr, callFrame c args = .ok fr ∧ fr.parent = some c.frame ∧ fr.Opens a id ∧
      (b.lexicals = [] → fr.Filled) := by
  let base := bindVars (bindParams ⟨some c.frame, []⟩ c.params args) c.body.vars
  have hfilled : base.Filled := bindVars_filled (bindParams_filled (Frame.filled_nil _))
  have hhas : ∀ n, base.has n = true ↔ n ∈ c.params ∨ n ∈ b.vars.map (·.1) := fun n => by
    rw [has_bindVars, has_bindParams, hb, Block.vars_map, List.map_map]
    simp [Frame.has, Frame.find?, Function.comp_def]
  have hd := ho.distinctNames ha
  have hlex : c.body.lexicals = b.lexicals.map (Lexical.map Mark.span) := by
    rw [hb, Block.lexicals_map]
  have hnames : (c.body.lexicals.map (·.name)) = b.lexicals.map (·.name) := by
    rw [hlex, List.map_map]
    rfl
  refine ⟨withLexicals base c.body.lexicals, bindLexicals_total ?_ ?_, ?_, ?_,
    fun hnil => ?_⟩
  · rw [hnames]
    exact ho.distinctLexicals
  · intro l' hl'
    rw [hlex] at hl'
    obtain ⟨l, hl, rfl⟩ := List.mem_map.1 hl'
    rw [hhas, not_or]
    exact hd.apart l hl
  · exact (bindVars_parent _ _).trans (bindParams_parent _ _ _)
  · obtain ⟨s, hs, hk, hp, hn⟩ := ho.scope
    refine .of_names c.body.lexicals ha ⟨s, hs, hk, hp, fun n => ?_⟩ ?_
      fun h => const_withLexicals hfilled h
    · rw [hn, has_withLexicals, hhas, hnames, or_assoc]
    · rw [hlex]
      exact ho.lexicals.bindings
  · have hbase : withLexicals base c.body.lexicals = base := by
      rw [hlex, hnil]
      exact congrArg (Frame.mk base.parent) (List.append_nil _)
    rw [hbase]
    exact hfilled

/-- The frame of a block has the variables of the scope of the block. -/
theorem Eval.blockFrame_opens {b : Block Mark} {f : FrameId} (ha : a.Consistent)
    (ho : a.OpensBlock b sc) (hb : b.lexicals ≠ []) :
    ∃ fr, bindLexicals ⟨some f, []⟩ (b.map Mark.span).lexicals = .ok fr ∧ fr.parent = some f ∧
      fr.Opens a b.mark.id := by
  have hlex := Block.lexicals_map Mark.span b
  have hnames : ((b.map Mark.span).lexicals.map (·.name)) = b.lexicals.map (·.name) := by
    rw [hlex, List.map_map]
    rfl
  refine ⟨_, bindLexicals_total ?_ fun l hl hx => ?_, rfl, ?_⟩
  · rw [hnames]
    exact ho.distinct ha
  · cases hx
  · obtain ⟨s, hs, hk, hp, hn⟩ := (ho.scope hb).2
    refine .of_names ((b.map Mark.span).lexicals) ha ⟨s, hs, hk, hp, fun n => ?_⟩ ?_
      fun h => const_withLexicals (Frame.filled_nil _) h
    · rw [hn, has_withLexicals, hnames]
      simp [Frame.has, Frame.find?]
    · rw [hlex]
      exact ho.lexicals.bindings

/-- A frame with one variable has that of the header of a loop. -/
theorem Scoping.OpensLoop.opens {loop : NodeId} {h : Header Mark} {l : Lexical Mark}
    (ho : a.OpensLoop loop h sc) (ha : a.Consistent) (hl : Resolve.headerLexical? h = some l)
    (f : FrameId) (content : Option Value) :
    (Frame.mk (some f) [(l.name, ⟨content, l.kind == .const⟩)]).Opens a loop := by
  obtain ⟨⟨s, hs, hk, hp, hnames⟩, hb⟩ := ho l hl
  have hfind : ∀ {n c}, (Frame.mk (some f) [(l.name, ⟨content, l.kind == .const⟩)]).find?
    n = some c →
      n = l.name ∧ c = ⟨content, l.kind == .const⟩ := fun h => by
    have := Table.mem_of_lookup h
    cases List.mem_singleton.1 this
    exact ⟨rfl, rfl⟩
  refine .of_names [l.map Mark.span] ha ⟨s, hs, hk, hp, fun n => ?_⟩ ?_ fun h hc => ?_
  · rw [hnames, List.mem_singleton, Frame.has, Option.isSome_iff_exists]
    refine ⟨fun hn => ⟨⟨content, l.kind == .const⟩, ?_⟩, fun hc => hc.elim fun c hc => (hfind hc).1⟩
    rw [hn]
    simp [Frame.find?]
  · intro l' hl'
    obtain rfl := List.mem_singleton.1 hl'
    obtain ⟨b, hb, hbn, hbs, hbo⟩ := hb
    obtain ⟨_, -, hbm⟩ := Option.bind_eq_some_iff.1 hb
    exact ⟨b, (mem_of_binding? hbm).1, hbn, hbs, by rw [hbo]; rfl⟩
  · obtain ⟨rfl, rfl⟩ := hfind h
    exact ⟨_, List.mem_singleton_self _, rfl, eq_of_beq hc⟩

end Opens

end FlatScope
