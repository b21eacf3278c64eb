import FlatScope.Proofs.Lowering.Total
import FlatScope.Proofs.Scope.Acts
import FlatScope.Proofs.Scope.Total
import FlatScope.Transform

/-!
# Names from outside

Of the names that mean something outside of a function, its transformation depends only on those
that the function uses. Each act of the resolution that succeeds does the same when more names are
known (`Resolve.Act.perform_mono`), hence so does the resolution of a function
(`FunctionDef.resolve_mono`), and nothing after the resolution looks at these names.

A function that may call itself is transformed on its own as it is within a program, where all
functions of the program are known (`FunctionDef.transformKnowing_of_transform`). A program that is
transformed therefore has it among its functions, unless the transformation ends at another function
(`Program.transform_cases`): a strict one ends at the first that is rejected.
-/

namespace FlatScope

namespace Resolve

variable {globals more : List Name} {st st' : Scoping}

/-- A name that is resolved is so if more names are known. -/
theorem reference_mono (h : globals ⊆ more) {sc : ScopeId} {n : Name} {m : Mark} {w : Bool}
    (hr : reference globals sc n m w st = .ok ((), st')) :
    reference more sc n m w st = .ok ((), st') := by
  obtain ⟨rfl, hknown⟩ := reference_eq hr
  have hmore : ¬ ((st.lookup? sc n).isNone && !more.contains n) := by
    cases hl : st.lookup? sc n with
    | none => simpa using h (hknown hl)
    | some b => simp
  change (if _ then _ else _ : Resolve Unit) st = _
  rw [if_neg hmore]
  rfl

/-- An act that succeeds does the same if more names are known. -/
theorem Act.perform_mono (h : globals ⊆ more) {x : Act}
    (hx : x.perform globals st = .ok ((), st')) : x.perform more st = .ok ((), st') := by
  cases x with
  | refers => exact reference_mono h hx
  | _ => exact hx

/-- Acts that succeed do the same if more names are known. -/
theorem performAll_mono (h : globals ⊆ more) {acts : List Act}
    (hacts : performAll globals acts st = .ok ((), st')) :
    performAll more acts st = .ok ((), st') := by
  induction acts generalizing st with
  | nil => exact hacts
  | cons x acts ih =>
    rw [performAll_cons] at hacts ⊢
    obtain ⟨⟨⟩, t, hx, hrest⟩ := bind_ok hacts
    rw [bind_eq (x.perform_mono h hx)]
    exact ih hrest

end Resolve

namespace FunctionDef

variable {globals more : List Name}

/-- A function whose names are resolved has the same scopes, bindings and references if more names
    are known. -/
theorem resolve_mono {fn : FunctionDef Mark} (h : globals ⊆ more) {a : Scoping}
    (ha : fn.resolve globals = .ok a) : fn.resolve more = .ok a := by
  rw [fn.resolve_eq, Resolve.performAll_mono h (fn.resolve_performs ha)]
  rfl

/-- A function that is accepted is analysed in the same way if more names are known. -/
theorem analyse_mono {fn : FunctionDef Mark} (h : globals ⊆ more) {hoisting : Bool} {a : Analysis}
    (ha : fn.analyse globals hoisting = .ok a) : fn.analyse more hoisting = .ok a := by
  obtain ⟨s, hs, hc, rfl⟩ := analyse_eq_ok.1 ha
  exact analyse_eq_ok.2 ⟨s, resolve_mono h hs, hc, rfl⟩

/-- A function that is rejected is so if fewer names are known, though maybe for another reason. -/
theorem analyse_error_anti {fn : FunctionDef Mark} (h : globals ⊆ more) {hoisting : Bool}
    {r : Rejection} (hr : fn.analyse more hoisting = .error r) :
    ∃ r', fn.analyse globals hoisting = .error r' := by
  cases ha : fn.analyse globals hoisting with
  | error r' => exact ⟨r', rfl⟩
  | ok a => cases hr.symm.trans (analyse_mono h ha)

/-- What an accepted function of the source is lowered to. -/
theorem lower_of_analyse {fn : FunctionDef Span} (hsrc : fn.IsSource) {hoisting : Bool}
    {a : Analysis} (ha : fn.number.analyse globals hoisting = .ok a) :
    ∃ out, fn.number.lower a = .ok out := by
  obtain ⟨out, hout, -⟩ :=
    (analyse_analysed (fn.shaped_number.2 hsrc) (fn.numberFrom_consecutive 1) ha).lower_lowers
  exact ⟨out, hout⟩

/-- A function that is transformed becomes the same if more names are known. -/
theorem transformKnowing_mono {fn out : FunctionDef Span} {o : Options} (h : globals ⊆ more)
    (ht : fn.transformKnowing o globals = .ok out) : fn.transformKnowing o more = .ok out := by
  rw [transformKnowing] at ht
  cases ha : fn.number.analyse (o.knownNames globals) o.hoisting with
  | error r =>
    rw [ha] at ht
    cases ht
  | ok a =>
    rw [ha] at ht
    have hknown : o.knownNames globals ⊆ o.knownNames more := List.append_subset.2
      ⟨List.subset_append_left _ _, fun n hn => List.mem_append_right _ (h hn)⟩
    rw [transformKnowing, analyse_mono hknown ha]
    exact ht

/-- A function of a program becomes what it becomes on its own. -/
theorem transformKnowing_of_transform {fn out : FunctionDef Span} {o : Options}
    {fns : List (FunctionDef Span)} (hfn : fn ∈ fns) (ht : fn.transform o = .ok out) :
    fn.transformKnowing o (fns.map (·.name)) = .ok out :=
  transformKnowing_mono (fun _ hn => List.mem_singleton.1 hn ▸ List.mem_map_of_mem hfn) ht

/-- The transformation of a program ends at a function that is rejected, if it is strict, or at one
    that is not as it is read. -/
theorem tryTransform_error {fn : FunctionDef Span} {o : Options} {names : List Name} {e : Failure}
    (h : fn.tryTransform o names = .error e) :
    fn.transformKnowing o names = .error e ∧ (o.strict = true ∨ ¬ fn.IsSource) := by
  rw [tryTransform] at h
  split at h
  next => cases h
  next r hr =>
    split at h
    next hstrict =>
      cases h
      exact ⟨hr, .inl hstrict⟩
    next => cases h
  next e' hnot he =>
    obtain rfl := Except.error.inj h
    refine ⟨he, .inr fun hsrc => ?_⟩
    rw [transformKnowing] at he
    cases ha : fn.number.analyse (o.knownNames names) o.hoisting with
    | error r =>
      rw [ha] at he
      exact hnot r (Except.error.inj he).symm
    | ok a =>
      obtain ⟨out, hout⟩ := lower_of_analyse hsrc ha
      rw [ha] at he
      cases hout.symm.trans he

end FunctionDef

/-! ## Functions of a program -/

/-- Steps with a result for each element, or the error of the first one that fails. -/
theorem mapM_cases {ε α β : Type} (f : α → Except ε β) : ∀ xs : List α,
    (∃ ys, xs.mapM f = .ok ys ∧ List.Forall₂ (fun x y => f x = .ok y) xs ys) ∨
      ∃ x ∈ xs, ∃ e, f x = .error e ∧ xs.mapM f = .error e
  | [] => .inl ⟨[], rfl, .nil⟩
  | x :: xs => by
    rw [List.mapM_cons]
    cases hx : f x with
    | error e => exact .inr ⟨x, List.mem_cons_self, e, hx, rfl⟩
    | ok y =>
      rcases mapM_cases f xs with ⟨ys, hys, hall⟩ | ⟨z, hz, e, he, hxs⟩
      · exact .inl ⟨y :: ys, by rw [hys]; rfl, .cons hx hall⟩
      · exact .inr ⟨z, List.mem_cons_of_mem _ hz, e, he, by rw [hxs]; rfl⟩

namespace Program

variable {p : Program Span} {o : Options}

/-- A program is transformed, with a result for each of its functions in order, or the
    transformation ends at one of its functions or at its statements. -/
theorem transform_cases (p : Program Span) (o : Options) :
    (∃ t functions main, p.transform o = .ok t ∧ t.results = functions ++ main ∧
      t.program.functions = functions.filterMap (·.function?) ∧
      List.Forall₂ (fun fn r => fn.tryTransform o (p.functions.map (·.name)) = .ok r) p.functions
        functions) ∨
    ∃ g ∈ p.functions ++ p.main?.toList, ∃ e, p.transform o = .error e ∧
      g.tryTransform o (p.functions.map (·.name)) = .error e := by
  rw [transform]
  rcases mapM_cases (·.tryTransform o (p.functions.map (·.name))) p.functions with
    ⟨functions, hfunctions, hall⟩ | ⟨g, hg, e, he, hfunctions⟩
  · rcases mapM_cases (·.tryTransform o (p.functions.map (·.name))) p.main?.toList with
      ⟨main, hmain, -⟩ | ⟨g, hg, e, he, hmain⟩
    · simp only [hfunctions, hmain]
      exact .inl ⟨_, functions, main, rfl, rfl, rfl, hall⟩
    · simp only [hfunctions, hmain]
      exact .inr ⟨g, List.mem_append_right _ hg, e, rfl, he⟩
  · simp only [hfunctions]
    exact .inr ⟨g, List.mem_append_left _ hg, e, rfl, he⟩

end Program

/-- Further names that mean something outside of a function change nothing about a function that is
    accepted: its analysis and what it is lowered to stay the same, and a function that is rejected
    with them is so without them. So a function that is transformed on its own becomes the same as
    part of a program, in its place, unless the transformation of the program ends at another
    function or at the statements: at one that is rejected, if it is strict, or at one that is not
    as it is read. -/
theorem transform_extra_globals :
    (∀ (fn : FunctionDef Span) (hoisting : Bool) (globals more : List Name), fn.IsSource →
      globals ⊆ more →
      (∀ a, fn.number.analyse globals hoisting = .ok a →
        fn.number.analyse more hoisting = .ok a ∧ ∃ out, fn.number.lower a = .ok out) ∧
      ∀ r, fn.number.analyse more hoisting = .error r →
        ∃ r', fn.number.analyse globals hoisting = .error r') ∧
    ∀ (fn out : FunctionDef Span) (o : Options) (p : Program Span) (i : Nat),
      fn.transform o = .ok out → p.functions[i]? = some fn →
      (∃ t, p.transform o = .ok t ∧ t.results[i]? = some ⟨fn.name, .ok out⟩ ∧
        out ∈ t.program.functions) ∨
      ∃ g ∈ p.functions ++ p.main?.toList, ∃ e, p.transform o = .error e ∧
        g.transformKnowing o (p.functions.map (·.name)) = .error e ∧
        (o.strict = true ∨ ¬ g.IsSource) := by
  refine ⟨fun fn hoisting globals more hsrc h => ⟨fun a ha =>
    ⟨FunctionDef.analyse_mono h ha, FunctionDef.lower_of_analyse hsrc ha⟩,
    fun r hr => FunctionDef.analyse_error_anti h hr⟩, fun fn out o p i ht hi => ?_⟩
  rcases p.transform_cases o with
    ⟨t, functions, main, hp, hresults, hfunctions, hall⟩ | ⟨g, hg, e, hp, he⟩
  · left
    obtain ⟨hlt, hfn⟩ := List.getElem?_eq_some_iff.1 hi
    have hlt' : i < functions.length := hall.length_eq ▸ hlt
    have hr := hall.get hlt hlt'
    have hmem : fn ∈ p.functions := List.mem_of_getElem? hi
    rw [List.get_eq_getElem, hfn, FunctionDef.tryTransform,
      FunctionDef.transformKnowing_of_transform hmem ht] at hr
    have hres : functions[i] = ⟨fn.name, .ok out⟩ := (Except.ok.inj hr).symm
    refine ⟨t, hp, ?_, ?_⟩
    · rw [hresults, List.getElem?_append_left hlt', List.getElem?_eq_getElem hlt', hres]
    · rw [hfunctions]
      exact List.mem_filterMap.2 ⟨_, List.getElem_mem hlt', by rw [hres]; rfl⟩
  · obtain ⟨hknow, hwhy⟩ := FunctionDef.tryTransform_error he
    exact .inr ⟨g, hg, e, hp, hknow, hwhy⟩

/-- The function `function f(n) { return n; }`. -/
def identity : FunctionDef Span :=
  ⟨.unknown, "f", ["n"], .mk .unknown [.ret .unknown (some (.name .unknown "n"))]⟩

/-- The function `function h() { return x; }`, whose name `x` means nothing. -/
def straying : FunctionDef Span :=
  ⟨.unknown, "h", [], .mk .unknown [.ret .unknown (some (.name .unknown "x"))]⟩

/-- The theorem for a loop with a wrapper that uses `g` from outside, with and without another name,
    and for a function of a program with another one that is rejected. -/
theorem transform_extra_globals_capturingLoop :
    (∃ a, capturingLoop.number.analyse ["g"] true = .ok a ∧
      capturingLoop.number.analyse ["h", "g"] true = .ok a ∧
      ∃ out, capturingLoop.number.lower a = .ok out) ∧
    (∃ r, straying.number.analyse ["g"] true = .error r) ∧
    ∃ t, (Program.mk [straying, identity] []).transform {} = .ok t ∧
      t.results[1]? = some ⟨"f", .ok identity⟩ ∧ identity ∈ t.program.functions := by
  have hloop : capturingLoop.IsSource := by
    simp [capturingLoop, FunctionDef.Shaped, Block.Shaped, Stmt.ShapedList, Stmt.Shaped,
      Header.Shaped, Expr.Shaped, Expr.ShapedList]
  have hstray : straying.IsSource := by
    simp [straying, FunctionDef.Shaped, Block.Shaped, Stmt.ShapedList, Stmt.Shaped, Expr.Shaped]
  refine ⟨⟨_, rfl, (transform_extra_globals.1 capturingLoop true ["g"] ["h", "g"] hloop
    (by decide)).1 _ rfl⟩, (transform_extra_globals.1 straying true ["g"] ["h", "g"] hstray
    (by decide)).2 _ rfl, ?_⟩
  have hsrc : ∀ g ∈ [straying, identity], g.IsSource := by
    simp [straying, identity, FunctionDef.Shaped, Block.Shaped, Stmt.ShapedList, Stmt.Shaped,
      Expr.Shaped]
  rcases transform_extra_globals.2 identity identity {} ⟨[straying, identity], []⟩ 1 rfl rfl with
    ht | ⟨g, hg, -, -, -, hstrict | hno⟩
  · exact ht
  · cases hstrict
  · exact absurd (hsrc g (by simpa [Program.main?] using hg)) hno

/-- In a strict transformation, a function that would be transformed on its own is not there if
    another function of the program is rejected. -/
theorem not_transform_strict : ¬ ∀ (fn out : FunctionDef Span) (o : Options) (p : Program Span),
    fn.IsSource → fn.transform o = .ok out → fn ∈ p.functions →
    ∃ t, p.transform o = .ok t ∧ out ∈ t.program.functions := by
  intro h
  obtain ⟨t, ht, -⟩ := h identity identity { strict := true } ⟨[identity, straying], []⟩
    (by simp [identity, FunctionDef.Shaped, Block.Shaped, Stmt.ShapedList,
    Stmt.Shaped, Expr.Shaped])
    rfl List.mem_cons_self
  have herror :
      ((Program.mk [identity, straying] []).transform { strict := true }).toOption.isNone :=
    rfl
  rw [ht] at herror
  cases herror

end FlatScope
