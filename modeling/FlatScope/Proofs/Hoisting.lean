import FlatScope.Proofs.Fixpoint
import FlatScope.Proofs.Regional.Programs

/-!
# Hoisting is invisible

Whether wrappers are made before loops changes the code of a function, but not what its names mean,
and it is the latter that decides if the function is transformed (`FunctionDef.Means`). So a program
that is transformed in one way is in the other one, and as both ways lead to code that ends as the
machine for regions does (`Program.Means.transform`), nothing of the choice is seen when the program
runs (`hoisting_invisible`).
-/

namespace FlatScope

open Regional

variable {fn out : FunctionDef Span} {o : Options} {names globals : List Name} {t : Transformed}

/-! ## Functions -/

/-- What the names in a function mean, if the checks accept it. -/
structure FunctionDef.Means (fn : FunctionDef Span) (globals : List Name) (f : Regional.Function) :
    Prop where
  code : f.code = fn.number
  resolved : fn.number.resolve globals = .ok f.scoping
  constants : f.scoping.checkConstants = .ok ()

namespace FunctionDef

/-- The names in a function that is transformed mean something. -/
theorem means_of_transformKnowing (h : fn.transformKnowing o names = .ok out) :
    ∃ f, fn.Means (o.knownNames names) f := by
  rw [transformKnowing] at h
  cases han : fn.number.analyse (o.knownNames names) o.hoisting with
  | error r =>
    rw [han] at h
    cases h
  | ok a =>
    obtain ⟨s, hs, hc, -⟩ := analyse_eq_ok.1 han
    exact ⟨⟨s, fn.number⟩, rfl, hs, hc⟩

/-- A function whose names mean something is transformed, whatever the options are. -/
theorem Means.transformKnowing {f : Regional.Function} (h : fn.Means (o.knownNames names) f)
    (hsrc : fn.IsSource) :
    ∃ out, fn.transformKnowing o names = .ok out ∧ f.LowersTo (o.knownNames names) out := by
  obtain ⟨scoping, code⟩ := f
  obtain ⟨hcode, hs, hc⟩ := h
  obtain rfl : code = fn.number := hcode
  have han : fn.number.analyse (o.knownNames names) o.hoisting = .ok _ :=
    analyse_eq_ok.2 ⟨scoping, hs, hc, rfl⟩
  have ha := analyse_analysed (fn.shaped_number.2 hsrc) (fn.numberFrom_consecutive 1) han
  obtain ⟨out, hout, hlow⟩ := ha.lower_lowers
  refine ⟨out, ?_, _, ⟨ha, rfl⟩, rfl, hlow⟩
  rw [FunctionDef.transformKnowing, han]
  exact hout

theorem tryTransform_eq_ok (h : fn.tryTransform o names = .ok t) (hok : t.ok) :
    ∃ out, fn.transformKnowing o names = .ok out := by
  rw [tryTransform] at h
  split at h
  next out hout => exact ⟨out, hout⟩
  next r _ =>
    split at h
    · cases h
    · obtain rfl : _ = t := Except.ok.inj h
      exact absurd hok Bool.false_ne_true
  next => cases h

theorem means_of_mapM {fns : List (FunctionDef Span)} {ts : List Transformed}
    (h : fns.mapM (·.tryTransform o names) = .ok ts) (hok : ts.all Transformed.ok) :
    ∃ fs, List.Forall₂ (·.Means (o.knownNames names)) fns fs := by
  induction fns generalizing ts with
  | nil => exact ⟨[], .nil⟩
  | cons fn fns ih =>
    rw [List.mapM_cons] at h
    cases ht : fn.tryTransform o names with
    | error e =>
      rw [ht] at h
      cases h
    | ok t =>
      cases hts : fns.mapM (·.tryTransform o names) with
      | error e =>
        rw [ht, hts] at h
        cases h
      | ok ts' =>
        rw [ht, hts] at h
        obtain rfl : t :: ts' = ts := Except.ok.inj h
        rw [List.all_cons, Bool.and_eq_true] at hok
        obtain ⟨out, hout⟩ := tryTransform_eq_ok ht hok.1
        obtain ⟨f, hf⟩ := means_of_transformKnowing hout
        obtain ⟨fs, hfs⟩ := ih hts hok.2
        exact ⟨f :: fs, .cons hf hfs⟩

/-- Functions whose names mean something are transformed, whatever the options are. -/
theorem mapM_of_means {fns : List (FunctionDef Span)} {fs : List Regional.Function}
    (h : List.Forall₂ (·.Means (o.knownNames names)) fns fs) (hsrc : ∀ fn ∈ fns, fn.IsSource) :
    ∃ ts, fns.mapM (·.tryTransform o names) = .ok ts ∧ ts.all Transformed.ok ∧
      List.Forall₂ (Function.LowersTo (o.knownNames names)) fs (ts.filterMap (·.function?)) := by
  induction h with
  | nil => exact ⟨[], rfl, rfl, .nil⟩
  | @cons fn f fns fs hf _ ih =>
    obtain ⟨out, hout, hlow⟩ := hf.transformKnowing (hsrc fn List.mem_cons_self)
    obtain ⟨ts, hts, hok, hlows⟩ := ih fun g hg => hsrc g (List.mem_cons_of_mem _ hg)
    have ht : fn.tryTransform o names = .ok ⟨fn.name, .ok out⟩ := by
      rw [tryTransform, hout]
    refine ⟨⟨fn.name, .ok out⟩ :: ts, ?_, hok, .cons hlow hlows⟩
    rw [List.mapM_cons, ht, hts]
    rfl

end FunctionDef

/-! ## Programs -/

/-- What the names in the functions of a program and in its statements mean, if the checks accept
    them. -/
structure Program.Means (p : Program Span) (globals : List Name) (fs : List Regional.Function)
    (main : Regional.Function) : Prop where
  functions : List.Forall₂ (·.Means globals) p.functions fs
  main : (p.main .unknown).Means globals main

namespace Program

variable {p : Program Span} {t : TransformedProgram}

/-- Statements that there are none of mean something. -/
theorem means_of_isEmpty (h : p.statements.isEmpty) :
    ∃ f, (p.main .unknown).Means globals f := by
  obtain ⟨functions, statements⟩ := p
  obtain rfl : statements = [] := List.isEmpty_iff.1 h
  exact ⟨⟨_, _⟩, rfl, rfl, rfl⟩

/-- The names in a program that is transformed mean something. -/
theorem means_of_transform (h : p.transform o = .ok t) (hok : t.ok) :
    ∃ fs main, p.Means (o.knownNames (p.functions.map (·.name))) fs main := by
  obtain ⟨functions, main, hfunctions, hmain, rfl⟩ := transform_eq_ok.1 h
  rw [TransformedProgram.ok, List.all_append, Bool.and_eq_true] at hok
  obtain ⟨fs, hfs⟩ := FunctionDef.means_of_mapM hfunctions hok.1
  rw [main?] at hmain
  split at hmain
  next hempty =>
    obtain ⟨f, hf⟩ := means_of_isEmpty hempty
    exact ⟨fs, f, hfs, hf⟩
  next =>
    obtain ⟨gs, hgs⟩ := FunctionDef.means_of_mapM hmain hok.2
    obtain ⟨f, -, hf, -, -⟩ := List.forall₂_cons_left_iff.1 hgs
    exact ⟨fs, f, hfs, hf⟩

/-- What the statements of a program are lowered to is again the function that statements form. -/
theorem main_of_transformKnowing {out : FunctionDef Span} (hsrc : (p.main .unknown).IsSource)
    (h : (p.main .unknown).transformKnowing o names = .ok out)
    (functions : List (FunctionDef Span)) :
    ∃ results, p.main?.toList.mapM (·.tryTransform o names) = .ok results ∧
      results.all Transformed.ok ∧ out = (Program.mk functions (code results)).main .unknown := by
  rw [main?]
  split
  next hempty =>
    obtain ⟨functions', ss⟩ := p
    obtain rfl : ss = [] := List.isEmpty_iff.1 hempty
    exact ⟨[], rfl, rfl, (Except.ok.inj h).symm⟩
  next =>
    obtain ⟨⟨ss, hss⟩, -, -⟩ := FunctionDef.transformKnowing_again hsrc h
    have ht : (p.main .unknown).tryTransform o names = .ok ⟨mainName, .ok out⟩ := by
      rw [FunctionDef.tryTransform, h]
      rfl
    refine ⟨[⟨mainName, .ok out⟩], ?_, rfl, ?_⟩
    · rw [Option.toList_some, List.mapM_cons, ht]
      rfl
    · subst hss
      exact congrArg (fun ss => (Program.mk functions ss).main .unknown) (List.append_nil ss).symm

/-- A program whose names mean something is transformed, whatever the options are, and the
    transformed program ends as the machine for regions does. -/
theorem Means.transform {fs : List Regional.Function} {main : Regional.Function}
    (h : p.Means (o.knownNames (p.functions.map (·.name))) fs main) (hsrc : p.IsSource) :
    ∃ t, p.transform o = .ok t ∧ t.ok ∧
      ∀ e, t.program.EndsWith e ↔ Regional.EndsWith fs main e := by
  obtain ⟨functions, hfunctions, hok, hlows⟩ := FunctionDef.mapM_of_means h.functions hsrc.1
  obtain ⟨out, hout, hlow⟩ := h.main.transformKnowing hsrc.2
  obtain ⟨results, hresults, hok', rfl⟩ := main_of_transformKnowing hsrc.2 hout
    (functions.filterMap (·.function?))
  refine ⟨_, transform_eq_ok.2 ⟨functions, results, hfunctions, hresults, rfl⟩, ?_,
    Regional.World.endsWith_iff hlows hlow⟩
  rw [TransformedProgram.ok, List.all_append, hok, hok']
  rfl

end Program

/-- Hoisting is invisible: a program that is read and transformed with hoisting is also transformed
    without, and of both outputs the same is seen when they run; one ends if and only if the other
    does. -/
theorem hoisting_invisible (source : Text) (file : Option Text) (p : Program Span) (o : Options)
    (t : TransformedProgram) (hp : Parser.parseFile source file = .ok p)
    (ht : p.transform { o with hoisting := true } = .ok t) (hok : t.ok) :
    ∃ u, p.transform { o with hoisting := false } = .ok u ∧ u.ok ∧
      ∀ e, t.program.EndsWith e ↔ u.program.EndsWith e := by
  have hsrc := parseFile_isSource hp
  obtain ⟨fs, main, hmeans⟩ := Program.means_of_transform ht hok
  obtain ⟨t', ht', -, hends⟩ := hmeans.transform hsrc
  obtain rfl : t = t' := Except.ok.inj (ht.symm.trans ht')
  have hmeans' : p.Means (Options.knownNames { o with hoisting := false }
    (p.functions.map (·.name))) fs main := hmeans
  obtain ⟨u, hu, hok', hends'⟩ := hmeans'.transform hsrc
  exact ⟨u, hu, hok', fun e => (hends e).trans (hends' e).symm⟩

/-- The theorem for a program that makes closures in a loop, whose wrapper is hoisted. -/
theorem hoisting_invisible_closures : ∃ p t,
    Parser.parseFile "for(let i of[1]){i=function(){return i;};}" none = .ok p ∧
      p.transform { hoisting := true } = .ok t ∧ t.ok ∧
      ∃ u, p.transform { hoisting := false } = .ok u ∧ u.ok ∧
        ∀ e, t.program.EndsWith e ↔ u.program.EndsWith e := by
  have hok : (Parser.parseFile "for(let i of[1]){i=function(){return i;};}" none).toOption.any
      fun p => (p.transform { hoisting := true }).toOption.any (·.ok) := by
    decide +kernel
  cases hp : Parser.parseFile "for(let i of[1]){i=function(){return i;};}" none with
  | error e =>
    rw [hp] at hok
    cases hok
  | ok p =>
    rw [hp, Except.toOption, Option.any_some] at hok
    cases ht : p.transform { hoisting := true } with
    | error e =>
      rw [ht] at hok
      cases hok
    | ok t =>
      rw [ht, Except.toOption, Option.any_some] at hok
      exact ⟨p, t, rfl, ht, hok, hoisting_invisible _ none p {} t hp ht hok⟩

end FlatScope
