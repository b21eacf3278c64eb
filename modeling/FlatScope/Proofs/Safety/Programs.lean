import FlatScope.Proofs.Hoisting
import FlatScope.Proofs.Run.Sessions
import FlatScope.Proofs.Safety.Runs
import FlatScope.Proofs.Scope.Tree

/-!
# Well-scoped programs

A program is well-scoped if its functions keep to the rules and nothing has two meanings outside of
all functions. It is loaded (`Program.WellScoped.loads`), and whatever it runs is a well-scoped
piece in a good store (`Program.WellScoped.ready`).
-/

namespace FlatScope

open Eval

namespace Program

variable {p : Program Span} {s t : Store} {ns : List Name} {V : Point → Prop} {plain level : Prop}

/-- The functions of a program, and the one that its statements form. -/
def IsCode (p : Program Span) (fn : FunctionDef Span) : Prop :=
  fn ∈ p.functions ∨ fn = p.main .unknown

/-- What means something outside of all functions. -/
def globals (p : Program Span) : List Name :=
  Builtin.all.map (·.name) ++ p.functions.map (·.name)

/-- A program whose functions keep to the rules, and in which nothing has two meanings outside of
    them. -/
structure WellScoped (p : Program Span) : Prop where
  distinct : p.globals.Nodup
  functions : ∀ fn, p.IsCode fn → ∃ signals, fn.Shaped signals ∧ fn.WellScoped p.globals

/-- A function of a program with what its names mean. -/
def HasCode (p : Program Span) (fn : FunctionDef Mark) (a : Scoping) : Prop :=
  ∃ f, p.IsCode f ∧ fn = f.number ∧ fn.resolve p.globals = .ok a ∧ a.checkConstants = .ok ()

/-- To be visited is passed on to whatever is run. -/
theorem Visits.starts {q r : Point} (h : p.Visits q) (hr : Starts q r) : p.Visits r := by
  obtain ⟨s, n, c, args, hw, hc, hv⟩ := h
  exact ⟨s, n, c, args, hw, hc, hv.tail hr⟩

namespace WellScoped

theorem code (h : p.WellScoped) {fn : FunctionDef Span} (hfn : p.IsCode fn) :
    ∃ a, p.HasCode fn.number a := by
  obtain ⟨signals, hshape, hw⟩ := h.functions fn hfn
  obtain ⟨a, ha, hc⟩ := FunctionDef.resolve_total (fn.shaped_number.2 hshape)
    (fn.numberFrom_consecutive 1) (fn.wellScoped_number.2 hw)
  exact ⟨a, fn, hfn, rfl, ha, hc⟩

theorem resolved (h : p.WellScoped) {fn : FunctionDef Mark} {a : Scoping} (hc : p.HasCode fn a) :
    a.Consistent ∧ a.OpensFunction fn.mark.id fn.params fn.body none ∧
      a.ResolvedStmts p.globals fn.mark.id fn.mark.id false fn.body.statements := by
  obtain ⟨f, hf, rfl, hr, -⟩ := hc
  obtain ⟨signals, hshape, -⟩ := h.functions f hf
  exact FunctionDef.resolve_resolved (f.shaped_number.2 hshape) (f.numberFrom_consecutive 1) hr

/-- The setting of a program and some of the moments of its runs. The code is as it is read if it is
    `plain`, and functions are the only scopes if it is `level`. -/
def setting (h : p.WellScoped) (starts : ∀ {q r}, V q → Starts q r → V r)
    (plainly : plain → ∀ fn, p.IsCode fn → ∀ x ∈ fn.number.nodes, x.Plain)
    (levelly : level → ∀ fn, p.IsCode fn → ∀ x ∈ fn.number.nodes, x.Level) : Setting where
  globals := p.globals
  code := p.HasCode
  visited := V
  plain := plain
  level := level
  starts := starts
  consistent hc := (h.resolved hc).1
  constants := fun ⟨_, _, _, _, hc⟩ => Scoping.violated?_of_checkConstants hc
  known := by
    rintro _ a ⟨f, -, rfl, hr, -⟩ n hn
    obtain ⟨-, -, -, hsettled⟩ := FunctionDef.resolve_finished f p.globals a hr
    obtain ⟨r, hr, rfl, hb⟩ := (hsettled.globalsUsed n).1 hn
    exact hsettled.globals r hr hb
  plainly hp := by
    rintro _ _ ⟨f, hf, rfl, -⟩
    exact plainly hp f hf
  levelly hl := by
    rintro _ _ ⟨f, hf, rfl, -⟩
    exact levelly hl f hf

end WellScoped

/-! ## Loading -/

/-- The closure of a function that is not nested in another one. -/
def closure (fn : FunctionDef Span) : Closure := ⟨fn.params, fn.body, globalFrame, some fn.name⟩

/-- The store while a program is loaded: it has one frame, with variables of the given names, and
    the closures of functions of the program. -/
structure Loading (p : Program Span) (ns : List Name) (s : Store) : Prop where
  frames : ∃ fr, s.frames = #[fr] ∧ fr.parent = none ∧ (∀ n, fr.has n = true ↔ n ∈ ns) ∧
    ∀ n c, fr.find? n = some c → c.const = false ∧ c.content.isSome
  closures : ∀ {i : Nat} {c}, s.closures[i]? = some c → ∃ fn ∈ p.functions, c = closure fn

namespace Loading

theorem empty : p.Loading [] (Store.empty.newFrame ⟨none, []⟩).2 where
  frames := ⟨_, rfl, rfl, fun n => by simp [Frame.has, Frame.find?], fun n c h => by
    simp [Frame.find?] at h⟩
  closures := nofun

/-- A name that means nothing yet can be defined. -/
theorem define (h : p.Loading ns s) {n : Name} (hn : n ∉ ns) (v : Value) :
    ∃ t, s.define globalFrame n (some v) false = .ok t ∧ p.Loading (ns ++ [n]) t := by
  obtain ⟨fr, hfr, hp, hhas, hcells⟩ := h.frames
  have hnone : fr.find? n = none := by
    rw [← Option.not_isSome_iff_eq_none]
    exact fun hx => hn ((hhas n).1 hx)
  have hfind : ∀ x, (fr.add n ⟨some v, false⟩).find? x =
      if x = n then some ⟨some v, false⟩ else fr.find? x := fun x => by
    split
    next hx =>
      subst hx
      exact Frame.find?_add_self hnone
    next hx => exact Frame.find?_add_ne hx
  refine ⟨{ s with frames := #[fr.add n ⟨some v, false⟩] }, ?_,
    ⟨_, rfl, hp, fun x => ?_, fun x c hx => ?_⟩, h.closures⟩
  · have hdef : fr.define n (some v) false = .ok (fr.add n ⟨some v, false⟩) := by
      rw [Frame.define, Frame.has, hnone]
      rfl
    rw [Store.define, hfr]
    change (fr.define n (some v) false).map _ = _
    rw [hdef]
    rfl
  · rw [Frame.has, hfind, List.mem_append, List.mem_singleton, ← hhas]
    split
    next hx => simp [hx]
    next hx => simp [hx, Frame.has]
  · rw [hfind] at hx
    split at hx
    · cases hx
      exact ⟨rfl, rfl⟩
    · exact hcells x c hx

theorem newClosure (h : p.Loading ns s) {fn : FunctionDef Span} (hfn : fn ∈ p.functions) :
    p.Loading ns (s.newClosure (closure fn)).2 where
  frames := h.frames
  closures hi := (Store.of_newClosure hi).elim (fun he => ⟨fn, hfn, he⟩) h.closures

/-- Things that define one name each are loaded one after the other. -/
theorem foldlM {α : Type} {name : α → Name} {k : Store → α → Except RunError Store} :
    ∀ (l : List α) {ns : List Name} {s : Store},
      (∀ a ∈ l, ∀ {ns s}, p.Loading ns s → name a ∉ ns →
        ∃ t, k s a = .ok t ∧ p.Loading (ns ++ [name a]) t) →
      p.Loading ns s → (ns ++ l.map name).Nodup →
      ∃ t, l.foldlM k s = .ok t ∧ p.Loading (ns ++ l.map name) t
  | [], ns, s, _, hs, _ => ⟨s, rfl, by rwa [List.map_nil, List.append_nil]⟩
  | a :: l, ns, s, hk, hs, hnodup => by
    rw [List.map_cons, List.append_cons] at hnodup ⊢
    have hnew : name a ∉ ns := fun ha =>
      (List.nodup_append.1 (List.nodup_append.1 hnodup).1).2.2 _ ha _ List.mem_cons_self rfl
    obtain ⟨t, ht, hload⟩ := hk a List.mem_cons_self hs hnew
    obtain ⟨u, hu, hload'⟩ := foldlM l (fun b hb => hk b (List.mem_cons_of_mem _ hb)) hload hnodup
    exact ⟨u, by rw [List.foldlM_cons, ht]; exact hu, hload'⟩

end Loading

namespace WellScoped

/-- A well-scoped program is loaded. -/
theorem loads (h : p.WellScoped) : ∃ s, initialStore p = .ok s ∧ p.Loading p.globals s := by
  obtain ⟨s, hs, hload⟩ := Loading.foldlM (p := p) Builtin.all
    (fun b _ _ _ hl hb => hl.define hb (.builtin b)) .empty (List.nodup_append.1 h.distinct).1
  obtain ⟨t, ht, hload'⟩ := Loading.foldlM p.functions
    (k := fun s fn => (s.newClosure (closure fn)).2.define globalFrame fn.name
      (some (s.newClosure (closure fn)).1) false)
    (fun fn hfn _ _ hl hn => (hl.newClosure hfn).define hn _) hload h.distinct
  refine ⟨t, ?_, hload'⟩
  rw [initialStore]
  change (Builtin.all.foldlM _ (Store.empty.newFrame ⟨none, []⟩).2 >>= _) = _
  rw [hs]
  exact ht

section Ready

variable (h : p.WellScoped) {starts : ∀ {q r}, V q → Starts q r → V r}
  {plainly : plain → ∀ fn, p.IsCode fn → ∀ x ∈ fn.number.nodes, x.Plain}
  {levelly : level → ∀ fn, p.IsCode fn → ∀ x ∈ fn.number.nodes, x.Level}

include h

/-- The closure of a function of the program is well-scoped. -/
theorem represents {fn : FunctionDef Span} (hfn : p.IsCode fn) (hs : 0 < s.frames.size) :
    (h.setting starts plainly levelly).Represents s (closure fn) := by
  obtain ⟨a, ha⟩ := h.code hfn
  obtain ⟨-, hopens, hres⟩ := h.resolved ha
  have hbody : fn.number.body.map Mark.span = fn.body := congrArg FunctionDef.body fn.number_map
  exact .code ha .itself hbody hopens hres hs nofun fun _ => rfl

/-- The store of a loaded program is good. -/
theorem good (hl : p.Loading p.globals s) : (h.setting starts plainly levelly).Good s := by
  obtain ⟨fr, hfr, hp, hhas, hcells⟩ := hl.frames
  have hframe : ∀ {i : FrameId} {e}, s.frames[i]? = some e → i = 0 ∧ e = fr := fun {i e} he => by
    have hi : i = 0 := Nat.lt_one_iff.1 (by simpa [hfr] using Store.lt_of_frame he)
    subst hi
    rw [hfr] at he
    exact ⟨rfl, (Option.some.inj he).symm⟩
  have hcell : ∀ {i : FrameId} {n c}, s.cell? i n = some c → fr.find? n = some c :=
    fun {i n c} hc => by
    obtain ⟨e, he, hec⟩ := Option.bind_eq_some_iff.1 hc
    obtain ⟨-, rfl⟩ := hframe he
    exact hec
  have hsize : 0 < s.frames.size := by simp [hfr]
  exact {
    nested := ⟨hsize, fun he hep => by
      obtain ⟨-, rfl⟩ := hframe he
      rw [hp] at hep
      cases hep⟩
    globals := fun n hn => .here (by rw [hfr]; rfl) ((hhas n).2 hn)
    outermost := fun hc => (hcells _ _ (hcell hc)).1
    closures := fun hi => by
      obtain ⟨fn, hfn, rfl⟩ := hl.closures hi
      exact h.represents (.inl hfn) hsize
    level := fun _ _ _ _ hc => (hcells _ _ (hcell hc)).2 }

/-- What can be called in a good store is well-scoped. -/
theorem callable {c : Closure} (hs : (h.setting starts plainly levelly).Good s)
    (hc : p.Callable s c) : (h.setting starts plainly levelly).Represents s c := by
  obtain ⟨i, hi⟩ | rfl := hc
  · exact hs.closures hi
  · exact h.represents (.inr rfl) hs.nested.global

/-- What can be called in a good store is ready to run. -/
theorem calls {n : Nat} {c : Closure} {args : List Value}
    (hs : (h.setting starts plainly levelly).Good s) (hc : p.Callable s c)
    (hv : V ⟨n, c, .callClosure c args, s⟩) :
    (h.setting starts plainly levelly).Ready false ⟨n, c, .callClosure c args, s⟩ :=
  ⟨hv, hs, h.callable hs hc⟩

/-- A store in which a well-scoped program waits is good. -/
theorem waits (hV : ∀ q, p.Visits q → V q) (hw : p.Waits s) :
    (h.setting starts plainly levelly).Good s := by
  induction hw with
  | loaded hs =>
    obtain ⟨t, ht, hl⟩ := h.loads
    obtain rfl := Except.ok.inj (ht.symm.trans hs)
    exact h.good hl
  | @called s t n c args hw hc hr ih =>
    exact (Setting.Goes.later (h.calls ih hc (hV _ ⟨s, n, c, args, hw, hc, .refl⟩)).ends hr).2

/-- Whatever a well-scoped program runs is a well-scoped piece in a good store. -/
theorem ready (hV : ∀ q, p.Visits q → V q) {q : Point} (hq : p.Visits q) :
    ∃ jumps, (h.setting starts plainly levelly).Ready jumps q := by
  obtain ⟨s, n, c, args, hw, hc, hv⟩ := hq
  exact (h.calls (h.waits hV hw) hc (hV _ ⟨s, n, c, args, hw, hc, .refl⟩)).visits hv

/-- A well-scoped program does not end by an error that is wrong in its setting. -/
theorem not_wrong (hV : ∀ q, p.Visits q → V q) {e : RunError} {n : Nat} {lines : List Text}
    (hrun : p.run n = some ⟨lines, some (.failed e)⟩) :
    ¬ (h.setting starts plainly levelly).Wrong e := by
  obtain ⟨s, hs, hl⟩ := h.loads
  have hc : p.Callable s (closure (p.main .unknown)) := .inr rfl
  have hready : (h.setting starts plainly levelly).Ready false
      ⟨n, closure (p.main .unknown), .callClosure (closure (p.main .unknown)) [], s⟩ :=
    h.calls (h.good hl) hc (hV _ ⟨s, n, _, [], .loaded hs, hc, .refl⟩)
  rw [run, hs] at hrun
  obtain ⟨r, t, ho⟩ := Outcome.ended_of_ending? hrun
  have ho' : Eval.main n p s = .interrupted (.failed e) t := by
    change (Eval.main n p s).ending? Store.lines = _ at hrun
    rw [ho, Outcome.ending?_ended] at hrun
    cases r with
    | ok a => simp at hrun
    | error w =>
      obtain rfl : w = .failed e := Option.some.inj (congrArg Ending.stop (Option.some.inj hrun))
      exact ho
  exact Setting.Goes.leaves hready.ends ho'

end Ready

end WellScoped

end Program

end FlatScope
