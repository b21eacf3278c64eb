import FlatScope.Parser.Report
import FlatScope.Proofs.Grammar.Legible
import FlatScope.Proofs.Lowering.Identity
import FlatScope.Proofs.Lowering.Scoped
import FlatScope.Proofs.Scope.Total
import FlatScope.Transform

/-!
# Transforming twice

Flat functions are the fixpoints of the transformation, and what comes out of it is flat. A function
that is lowered is well-scoped again (`LoweringPlan.LowersFunction.wellScoped`), so the checks
accept it, and since it is flat it is lowered to itself (`FunctionDef.transformKnowing_again`). A
program is transformed function by function, and its functions keep their names; so it does not
change when it is transformed once more (`transform_fixpoint`).
-/

namespace FlatScope

/-! ## Functions -/

/-- A flat function whose names keep to the rules stays as it is. -/
theorem FunctionDef.IsFlat.transformKnowing {fn : FunctionDef Span} {o : Options}
    {names : List Name} (hflat : fn.IsFlat) (hw : fn.WellScoped (o.knownNames names)) :
    fn.transformKnowing o names = .ok fn := by
  obtain ⟨a, ha, hc⟩ := FunctionDef.resolve_total (fn.shaped_number.2 (hflat.shaped hw))
    (fn.numberFrom_consecutive 1) (fn.wellScoped_number.2 hw)
  have han : fn.number.analyse (o.knownNames names) o.hoisting = .ok _ :=
    FunctionDef.analyse_eq_ok.2 ⟨a, ha, hc, rfl⟩
  rw [FunctionDef.transformKnowing, han]
  exact (FunctionDef.lower_flat hflat han).2

/-- A function that is transformed keeps its name, becomes flat, and stays as it is from then on. -/
theorem FunctionDef.transformKnowing_again {fn out : FunctionDef Span} {o : Options}
    {names : List Name} (hsrc : fn.IsSource) (h : fn.transformKnowing o names = .ok out) :
    (∃ code, out = ⟨fn.mark, fn.name, fn.params, .mk fn.body.mark code⟩) ∧ out.IsFlat ∧
      out.transformKnowing o names = .ok out := by
  rw [FunctionDef.transformKnowing] at h
  cases han : fn.number.analyse (o.knownNames names) o.hoisting with
  | error r =>
    rw [han] at h
    cases h
  | ok a =>
    rw [han] at h
    have ha := FunctionDef.analyse_analysed (fn.shaped_number.2 hsrc)
      (fn.numberFrom_consecutive 1) han
    obtain ⟨out', hout, hlow⟩ := ha.lower_lowers
    obtain rfl : out' = out := Except.ok.inj (hout.symm.trans h)
    obtain ⟨hflat, hw⟩ := hlow.wellScoped ⟨ha, rfl⟩
    refine ⟨?_, hflat, hflat.transformKnowing hw⟩
    obtain ⟨hoisted, body, roles, -, -, rfl⟩ := hlow
    obtain ⟨mark, name, params, b, ss⟩ := fn
    exact ⟨_, rfl⟩

/-- A function that passes through the transformation keeps its name, becomes flat, and stays as it
    is from then on. -/
theorem FunctionDef.tryTransform_again {fn : FunctionDef Span} {o : Options} {names : List Name}
    {t : Transformed} (hsrc : fn.IsSource) (h : fn.tryTransform o names = .ok t) (hok : t.ok) :
    ∃ code, let out : FunctionDef Span := ⟨fn.mark, fn.name, fn.params, .mk fn.body.mark code⟩
      t = ⟨fn.name, .ok out⟩ ∧ out.IsFlat ∧ out.tryTransform o names = .ok t := by
  rw [tryTransform] at h
  split at h
  next out hout =>
    obtain rfl : _ = t := Except.ok.inj h
    obtain ⟨⟨code, rfl⟩, hflat, hagain⟩ := transformKnowing_again hsrc hout
    refine ⟨code, rfl, hflat, ?_⟩
    rw [tryTransform, hagain]
  next r _ =>
    split at h
    · cases h
    · obtain rfl : _ = t := Except.ok.inj h
      exact absurd hok Bool.false_ne_true
  next => cases h

/-- Functions that pass through the transformation keep their names, become flat, and stay as they
    are. -/
theorem FunctionDef.mapM_tryTransform_again {o : Options} {names : List Name} :
    ∀ {fns : List (FunctionDef Span)} {ts : List Transformed}, (∀ fn ∈ fns, fn.IsSource) →
      fns.mapM (·.tryTransform o names) = .ok ts → ts.all Transformed.ok →
      (∀ out ∈ ts.filterMap (·.function?), out.IsFlat) ∧
        (ts.filterMap (·.function?)).map (·.name) = fns.map (·.name) ∧
        (ts.filterMap (·.function?)).mapM (·.tryTransform o names) = .ok ts
  | [], _, _, h, _ => by
    obtain rfl := Except.ok.inj h
    exact ⟨by simp, rfl, rfl⟩
  | fn :: fns, ts, hsrc, h, hok => by
    rw [List.mapM_cons] at h
    cases ht : fn.tryTransform o names with
    | error e =>
      rw [ht] at h
      cases h
    | ok t =>
      cases hts : fns.mapM (·.tryTransform o names) with
      | error e =>
        rw [ht, hts] at h
        cases h
      | ok ts' =>
        rw [ht, hts] at h
        obtain rfl : t :: ts' = ts := Except.ok.inj h
        rw [List.all_cons, Bool.and_eq_true] at hok
        obtain ⟨code, rfl, hflat, hagain⟩ :=
          tryTransform_again (hsrc fn List.mem_cons_self) ht hok.1
        obtain ⟨hflats, hnames, hagains⟩ := mapM_tryTransform_again
          (fun g hg => hsrc g (List.mem_cons_of_mem _ hg)) hts hok.2
        refine ⟨List.forall_mem_cons.2 ⟨hflat, hflats⟩, congrArg (fn.name :: ·) hnames, ?_⟩
        rw [List.filterMap_cons]
        change List.mapM _ (_ :: _) = _
        rw [List.mapM_cons, hagain, hagains]
        rfl

/-! ## Programs -/

namespace Program

variable {p : Program Span} {o : Options} {t : TransformedProgram}

/-- What a program is transformed to. -/
theorem transform_eq_ok : p.transform o = .ok t ↔ ∃ functions main,
    p.functions.mapM (·.tryTransform o (p.functions.map (·.name))) = .ok functions ∧
    p.main?.toList.mapM (·.tryTransform o (p.functions.map (·.name))) = .ok main ∧
    t = ⟨⟨functions.filterMap (·.function?),
      (main.filterMap (·.function?)).flatMap (·.body.statements)⟩, functions ++ main⟩ := by
  have hbind {α β : Type} {x : Except Failure α} {f : α → Except Failure β} {y : β} :
      (x >>= f) = .ok y ↔ ∃ z, x = .ok z ∧ f z = .ok y := by
    cases x <;> simp [bind, Except.bind]
  rw [transform]
  simp only [hbind]
  refine exists_congr fun functions => ?_
  rw [exists_and_left]
  refine and_congr_right fun _ => exists_congr fun main => and_congr_right fun _ => ?_
  exact ⟨fun h => (Except.ok.inj h).symm, fun h => congrArg Except.ok h.symm⟩

/-- The statements of the function that the statements of a program form. -/
def code (main : List Transformed) : List (Stmt Span) :=
  (main.filterMap (·.function?)).flatMap (·.body.statements)

/-- The statements of a program become flat, and stay as they are from then on. -/
theorem main_again {names : List Name} {main : List Transformed}
    (hsrc : Stmt.AreSource p.statements)
    (h : p.main?.toList.mapM (·.tryTransform o names) = .ok main) (hok : main.all Transformed.ok)
    (functions : List (FunctionDef Span)) :
    ∃ ss main', code main = ss ∧ Stmt.AreFlat ss ∧
      (Program.mk functions ss).main?.toList.mapM (·.tryTransform o names) = .ok main' ∧
      main'.all Transformed.ok ∧ code main' = ss := by
  rw [main?] at h
  split at h
  next =>
    obtain rfl := Except.ok.inj h
    exact ⟨[], [], rfl, trivial, rfl, rfl, rfl⟩
  next =>
    cases ht : (p.main .unknown).tryTransform o names with
    | error e =>
      rw [Option.toList_some, List.mapM_cons, ht] at h
      cases h
    | ok t =>
      rw [Option.toList_some, List.mapM_cons, ht] at h
      obtain rfl : [t] = main := Except.ok.inj h
      rw [List.all_cons, List.all_nil, Bool.and_true] at hok
      have hmain : (p.main .unknown).IsSource := hsrc
      obtain ⟨ss, rfl, hflat, hagain⟩ := FunctionDef.tryTransform_again hmain ht hok
      -- if nothing is left of the statements, there is nothing left to transform either
      cases ss with
      | nil => exact ⟨[], [], rfl, trivial, rfl, rfl, rfl⟩
      | cons s ss =>
        have hmain' :
            ((Program.mk functions (s :: ss)).main .unknown).tryTransform o names = .ok _ := hagain
        have hcode :
            code [⟨mainName, .ok ((Program.mk functions (s :: ss)).main .unknown)⟩] = s :: ss :=
          List.append_nil _
        refine ⟨s :: ss, _, hcode, hflat, ?_, rfl, hcode⟩
        rw [main?, List.isEmpty_cons, if_neg Bool.false_ne_true, Option.toList_some,
          List.mapM_cons, hmain']
        rfl

/-- A program whose functions are all transformed becomes flat, and stays as it is from then on. -/
theorem transform_again (hsrc : p.IsSource) (h : p.transform o = .ok t) (hok : t.ok) :
    t.program.IsFlat ∧ ∃ u, t.program.transform o = .ok u ∧ u.ok ∧ u.program = t.program := by
  obtain ⟨functions, main, hfunctions, hmain, rfl⟩ := transform_eq_ok.1 h
  rw [TransformedProgram.ok, List.all_append, Bool.and_eq_true] at hok
  obtain ⟨hflat, hnames, hagain⟩ := FunctionDef.mapM_tryTransform_again hsrc.1 hfunctions hok.1
  obtain ⟨ss, main', rfl, hss, hmain', hok', hcode⟩ :=
    main_again hsrc.2 hmain hok.2 (functions.filterMap (·.function?))
  refine ⟨⟨hflat, hss⟩, _, transform_eq_ok.2 ⟨functions, main', ?_, ?_, rfl⟩, ?_, ?_⟩
  · rw [hnames]
    exact hagain
  · rw [hnames]
    exact hmain'
  · rw [TransformedProgram.ok, List.all_append, hok.1, hok']
    rfl
  · exact congrArg (Program.mk _) hcode

end Program

/-- Flat functions are the fixpoints of the transformation, which takes programs to flat ones: a
    flat function that the checks accept has no wrappers and is lowered to itself; a program that is
    read and whose functions are all transformed becomes flat, and is transformed to itself from
    then on. -/
theorem transform_fixpoint :
    (∀ (fn : FunctionDef Span) (globals : List Name) (hoisting : Bool) (a : Analysis), fn.IsFlat →
      fn.number.analyse globals hoisting = .ok a →
      a.wrappers = [] ∧ fn.number.lower a = .ok fn) ∧
    ∀ (source : Text) (file : Option Text) (p : Program Span) (o : Options)
      (t : TransformedProgram), Parser.parseFile source file = .ok p → p.transform o = .ok t →
      t.ok → t.program.IsFlat ∧
        ∃ u, t.program.transform o = .ok u ∧ u.ok ∧ u.program = t.program := by
  refine ⟨fun fn globals hoisting a hflat h => FunctionDef.lower_flat hflat h,
    fun source file p o t hp h hok => ?_⟩
  exact Program.transform_again (parseFile_isSource hp) h hok

/-- The function `function f(n) { for (var x of n) { break; } return x; }`. -/
def firstOf : FunctionDef Span :=
  let u := Span.unknown
  ⟨u, "f", ["n"], .mk u [
    .loop u (.forOf u "x" (some .var) (.name u "n")) (.mk u [.brk u]),
    .ret u (some (.name u "x"))]⟩

/-- The theorem for a flat function with a loop, and for a program that makes a closure in every
    iteration of a loop. -/
theorem transform_fixpoint_closures :
    (∃ a, firstOf.number.analyse [] true = .ok a ∧ a.wrappers = [] ∧
      firstOf.number.lower a = .ok firstOf) ∧
    ∃ p t, Parser.parseFile "for(let i of[1]){i=function(){return i;};}" none = .ok p ∧
      p.transform {} = .ok t ∧ t.ok ∧ t.program.IsFlat ∧
        ∃ u, t.program.transform {} = .ok u ∧ u.ok ∧ u.program = t.program := by
  constructor
  · refine ⟨_, rfl, transform_fixpoint.1 _ [] true _ ?_ rfl⟩
    simp [firstOf, FunctionDef.IsFlat, Block.IsFlat, Stmt.AreFlat, Stmt.IsFlat, Header.IsFlat,
      Expr.IsFlat]
  · have hok : (Parser.parseFile "for(let i of[1]){i=function(){return i;};}" none).toOption.any
        fun p => (p.transform {}).toOption.any (·.ok) := by
      decide +kernel
    cases hp : Parser.parseFile "for(let i of[1]){i=function(){return i;};}" none with
    | error e =>
      rw [hp] at hok
      cases hok
    | ok p =>
      rw [hp, Except.toOption, Option.any_some] at hok
      cases ht : p.transform {} with
      | error e =>
        rw [ht] at hok
        cases hok
      | ok t =>
        rw [ht, Except.toOption, Option.any_some] at hok
        exact ⟨p, t, rfl, ht, hok, transform_fixpoint.2 _ none p {} t hp ht hok⟩

end FlatScope
