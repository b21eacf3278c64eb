import FlatScope.Proofs.Hoisting
import FlatScope.Proofs.Residence.Calls
import FlatScope.Proofs.Residence.Headers

/-!
# Programs and their transformations

While a program is loaded, the machine for regions is loaded in the same way, so the machine ends as
the program does, unless that stops at a variable whose declaration has not run
(`Joint.endsWith`). As the transformed program ends as the machine does, the transformation
preserves what is seen of the program (`transform_preserves`).

A loop that counts is taken out if a function in its header uses the binding of the header: the
header of the transformed loop has one variable for all iterations.
-/

namespace FlatScope

open Process

variable {globals : List Name} {p : Program Span}

/-- A function of the source whose names mean something. -/
theorem FunctionDef.Means.settled {fn : FunctionDef Span} {f : Regional.Function}
    (h : fn.Means globals f) (hsrc : fn.IsSource) (hclosed : fn.number.ClosedHeaders f.scoping) :
    ∃ a, a.scoping = f.scoping ∧ fn.number.Settled globals a := by
  have han : fn.number.analyse globals true = .ok _ :=
    analyse_eq_ok.2 ⟨f.scoping, h.resolved, h.constants, rfl⟩
  obtain ⟨hrecords, -⟩ := resolve_records (fn.numberFrom_consecutive 1) h.resolved
  exact ⟨_, rfl, analyse_analysed (fn.shaped_number.2 hsrc) (fn.numberFrom_consecutive 1) han,
    hrecords, hclosed⟩

namespace Regional.Joint

variable {s : Store} {m : Machine} {v : Value}

/-! ## Loading -/

/-- No variable resides anywhere. -/
def bare (s : Store) (m : Machine) : Joint := ⟨s, m, fun _ _ _ => False, fun _ _ _ => False⟩

theorem not_at_bare {f : FrameId} {x : Name} {l : Location} : ¬ (bare s m).At f x l :=
  fun h => h.elim False.elim False.elim

/-- While a program is loaded, the states match, and nothing is around the closures, so they are the
    same whatever else there is. -/
structure Met (s : Store) (m : Machine) : Prop where
  agree : (bare s m).Matches
  functions : ∀ {i : Nat} {C D}, s.closures[i]? = some C → m.closures[i]? = some D →
    ∀ j : Joint, 0 < j.store.frames.size → j.Represents C D

/-- Nothing is loaded. -/
theorem met_initial : Met (Store.empty.newFrame ⟨none, []⟩).2 Machine.initial where
  agree := {
    store := ⟨rfl, fun _ => .nil, rfl, rfl⟩
    outermost := ⟨⟨none, []⟩, ⟨none, []⟩, rfl, rfl, rfl, rfl, .nil⟩
    nested := by
      refine ⟨Nat.one_pos, fun {f fr p} hf hp => ?_⟩
      rw [bare, Store.newFrame, Array.getElem?_push] at hf
      split at hf
      · cases hf
        cases hp
      · cases hf
    placed := fun h => (not_at_bare h).elim
    agrees := fun h => (not_at_bare h).elim
    injective := fun h => (not_at_bare h).elim
    closures := rfl
    represents := fun h => by cases h }
  functions h := by cases h

namespace Met

/-- A name that means something outside of all functions gets a value. -/
theorem define (h : Met s m) (x : Name) (hv : (bare s m).Has v) :
    Loads Met (s.define Eval.globalFrame x (some v) false) (m.define x v) := by
  obtain ⟨g, g', hg, hg', hgg⟩ := h.agree.outermost
  rcases hgg.define hg hg' x hv with ⟨e, hs, ht⟩ | ⟨hs, ht, hframe, hframe', hgg'⟩
  · rw [show s.define Eval.globalFrame x (some v) false = _ from hs, Machine.define,
      show m.store.define Eval.globalFrame x (some v) false = _ from ht]
    rfl
  · rw [show s.define Eval.globalFrame x (some v) false = _ from hs, Machine.define,
      show m.store.define Eval.globalFrame x (some v) false = _ from ht]
    have hsize : 0 < (s.frames.setIfInBounds 0 (g.add x ⟨some v, false⟩)).size := by
      rw [Array.size_setIfInBounds]
      exact h.agree.nested.global
    refine ⟨?_, h.functions⟩
    exact {
      store := ⟨h.agree.store.size, h.agree.store.elements, h.agree.store.nans,
        h.agree.store.printed⟩
      outermost := ⟨_, _, hframe, hframe', hgg'⟩
      nested := by
        refine ⟨hsize, fun {f fr p} hf hp => ?_⟩
        rw [bare, Array.getElem?_setIfInBounds] at hf
        split at hf
        · split at hf
          · cases hf
            rw [Frame.add, hgg.left] at hp
            cases hp
          · cases hf
        · exact h.agree.nested.parents hf hp
      placed := fun hl => (not_at_bare hl).elim
      agrees := fun hl => (not_at_bare hl).elim
      injective := fun hl => (not_at_bare hl).elim
      closures := h.agree.closures
      represents := fun hC hD => h.functions hC hD _ hsize }

/-- A function is made a value. -/
theorem newClosure (h : Met s m) {C : FlatScope.Closure} {D : Closure}
    (hCD : ∀ j : Joint, 0 < j.store.frames.size → j.Represents C D) :
    Met (s.newClosure C).2 (m.newClosure D).2 ∧
      (bare (s.newClosure C).2 (m.newClosure D).2).Has (s.newClosure C).1 ∧
      (m.newClosure D).1 = (s.newClosure C).1 := by
  obtain ⟨hagree, -, hvalue⟩ := h.agree.newClosure (hCD _ h.agree.nested.global)
  have hsame : (m.newClosure D).1 = (s.newClosure C).1 := (eq_of_like hvalue).symm
  refine ⟨⟨hagree, fun {i E F} hE hF => ?_⟩, ?_, hsame⟩
  · change (s.closures.push C)[i]? = some E at hE
    change (m.closures.push D)[i]? = some F at hF
    have hsizes : s.closures.size = m.closures.size := h.agree.closures
    rw [Array.getElem?_push] at hE hF
    rw [← hsizes] at hF
    split at hE
    · rename_i hi
      rw [if_pos hi] at hF
      cases hE
      cases hF
      exact hCD
    · rename_i hi
      rw [if_neg hi] at hF
      exact h.functions hE hF
  · rw [Has]
    nth_rewrite 2 [← hsame]
    exact hvalue

end Met

/-! ## Programs -/

/-- A function of a program with what its names mean, none of whose functions in headers closes over
    the binding of the header. -/
structure Kept (globals : List Name) (fn : FunctionDef Span) (f : Function) : Prop where
  means : fn.Means globals f
  source : fn.IsSource
  closed : fn.number.ClosedHeaders f.scoping

/-- Nothing is around a function of a program. -/
theorem Kept.represents {fn : FunctionDef Span} {f : Function} (h : Kept globals fn f)
    (name : Option Name) (j : Joint) (hj : 0 < j.store.frames.size) :
    j.Represents ⟨fn.params, fn.body, Eval.globalFrame, name⟩ f.closure := by
  obtain ⟨a, hscoping, hfn⟩ := h.means.settled h.source h.closed
  obtain ⟨scoping, mark, fname, params, k, ss⟩ := f
  obtain rfl : a.scoping = scoping := hscoping
  have hcode : ⟨mark, fname, params, .mk k ss⟩ = fn.number := h.means.code
  have hmap := fn.number_map
  rw [← hcode] at hfn hmap
  rw [← hmap]
  refine .mk (m := k) k.span name hfn hfn.analysed.source hfn.analysed.resolved (fun y hy => ?_)
    hfn.analysed.opens hj (fun hd hs => ?_) fun _ _ => .top
  · have hbelow : y ∈ (Node.function ⟨mark, fname, params, .mk k ss⟩).nodes.tail :=
      List.mem_cons_of_mem _ hy
    exact ⟨List.mem_cons_of_mem _ hbelow, hfn.analysed.lt_below List.mem_cons_self hbelow⟩
  · exact absurd (hfn.analysed.consistent.of_lookup?_outermost hfn.analysed.opens.scope hd) hs

/-- Programs are loaded alike if the functions of the one are those of the other. -/
theorem loads {fs : List Function}
    (h : List.Forall₂ (fun f fn => Kept globals fn f) fs p.functions) :
    Loads Met (Eval.initialStore p) (load fs) := by
  refine .program h met_initial (fun s m b hm => hm.define _ (.plain rfl)) ?_
  intro f fn s m hf hm
  obtain ⟨hm', hv, hsame⟩ := hm.newClosure (hf.represents (some fn.name))
  have hname : f.code.name = fn.name := by
    rw [hf.means.code]
    rfl
  rw [hname, hsame]
  exact hm'.define _ hv

/-- The machine ends as the program does, unless that stops at a variable whose declaration has not
    run. -/
theorem endsWith {fs : List Function} {main : Function} {e : Ending}
    (h : List.Forall₂ (fun f fn => Kept globals fn f) fs p.functions)
    (hmain : Kept globals (p.main .unknown) main) (he : p.EndsWith e)
    (hstop : ∀ n, e.stop ≠ some (.failed (.uninitialized n))) : EndsWith fs main e := by
  have hload := loads h
  obtain ⟨n, hn⟩ := he
  unfold EndsWith run
  rw [Program.run] at hn
  cases hs : Eval.initialStore p with
  | error e' => cases hm : load fs with
    | error e'' =>
      rw [hs, hm] at hload
      obtain rfl : e' = e'' := hload
      rw [hs] at hn
      exact ⟨0, hn⟩
    | ok m =>
      rw [hs, hm] at hload
      exact hload.elim
  | ok s => cases hm : load fs with
    | error e'' =>
      rw [hs, hm] at hload
      exact hload.elim
    | ok m =>
      rw [hs, hm] at hload
      rw [hs] at hn
      obtain ⟨r, s', hr⟩ := Outcome.ended_of_ending? hn
      have hseen : (Outcome.ended r s').ending? Store.lines = some e := hr ▸ hn
      rw [Outcome.ending?_ended] at hseen
      obtain rfl := Option.some.inj hseen
      rcases (calls n hload.agree (hmain.represents _ _ hload.agree.nested.global)
        (.nil)).ends (Nat.le_refl n) hr with ⟨x, rfl⟩ | ⟨j, rfl, hj, K, hK⟩
      · exact absurd rfl (hstop x)
      · refine ⟨K, ?_⟩
        have hlines : j.store.lines = j.machine.store.lines :=
          congrArg List.reverse hj.agree.store.printed
        change (callClosure K main.closure [] (bare s m).machine).ending? _ = _
        rw [hK K (Nat.le_refl K), Outcome.ending?_ended, hlines]

end Regional.Joint

/-- Functions of a program that are transformed, with what their names mean. -/
theorem Program.Means.kept {fs : List Regional.Function} {main : Regional.Function}
    (h : p.Means globals fs main) (hsrc : p.IsSource) (hclosed : p.ClosedHeaders globals) :
    List.Forall₂ (fun f fn => Regional.Joint.Kept globals fn f) fs p.functions ∧
      Regional.Joint.Kept globals (p.main .unknown) main := by
  have hkept {fn : FunctionDef Span} {f : Regional.Function} (hm : fn.Means globals f)
      (hfn : fn.IsSource) (hin : fn ∈ p.main .unknown :: p.functions) :
      Regional.Joint.Kept globals fn f := by
    refine ⟨hm, hfn, hclosed fn hin f.scoping ?_⟩
    rw [hm.resolved]
    rfl
  refine ⟨?_, hkept h.main hsrc.2 List.mem_cons_self⟩
  refine (List.forall₂_iff_get.2 ⟨h.functions.length_eq.symm, fun i hi hi' => ?_⟩)
  have hm := (List.forall₂_iff_get.1 h.functions).2 i hi' hi
  exact hkept hm (hsrc.1 _ (List.get_mem ..)) (List.mem_cons_of_mem _ (List.get_mem ..))

/-- Transforming preserves what is seen of a program: if a program is read and transformed, and no
    function in the header of a `for` that counts uses the binding of the header, then, wherever the
    program ends, the transformed program ends with the same printed lines and the same outcome,
    unless what stops the program is a variable whose declaration has not run. -/
theorem transform_preserves (source : Text) (file : Option Text) (p : Program Span) (o : Options)
    (t : TransformedProgram) (e : Ending) (hp : Parser.parseFile source file = .ok p)
    (ht : p.transform o = .ok t) (hok : t.ok)
    (hclosed : p.ClosedHeaders (o.knownNames (p.functions.map (·.name)))) (he : p.EndsWith e)
    (hstop : ∀ n, e.stop ≠ some (.failed (.uninitialized n))) : t.program.EndsWith e := by
  have hsrc := parseFile_isSource hp
  obtain ⟨fs, main, hmeans⟩ := Program.means_of_transform ht hok
  obtain ⟨t', ht', -, hends⟩ := hmeans.transform hsrc
  obtain rfl : t = t' := Except.ok.inj (ht.symm.trans ht')
  obtain ⟨hfs, hmain⟩ := hmeans.kept hsrc hclosed
  exact (hends e).2 (Regional.Joint.endsWith hfs hmain he hstop)

/-- A program whose loop makes a closure in every iteration and is left early. -/
def closingLoop : Text :=
  ("const fs=[];" ++
  "for(let i=0;i<9;i=i+1){if(i==2){break;}push(fs,function(){return i;});}" ++
  "for(const f of fs){print(f());}" : String)

/-- The theorem for the program in `closingLoop`. -/
theorem transform_preserves_closures : ∃ p t,
    Parser.parseFile closingLoop none = .ok p ∧ p.transform {} = .ok t ∧ t.ok ∧
      p.ClosedHeaders (Options.knownNames {} (p.functions.map (·.name))) ∧
      p.EndsWith ⟨["0", "1"], none⟩ ∧ t.program.EndsWith ⟨["0", "1"], none⟩ := by
  have hok : (Parser.parseFile closingLoop none).toOption.any fun p =>
      (p.transform {}).toOption.any (·.ok) &&
        (decide (p.ClosedHeaders (Options.knownNames {} (p.functions.map (·.name)))) &&
          decide (p.run 40 = some ⟨["0", "1"], none⟩)) := by
    decide +kernel
  cases hp : Parser.parseFile closingLoop none with
  | error e =>
    rw [hp] at hok
    cases hok
  | ok p =>
    rw [hp, Except.toOption, Option.any_some, Bool.and_eq_true, Bool.and_eq_true,
      decide_eq_true_iff, decide_eq_true_iff] at hok
    obtain ⟨hok, hclosed, hrun⟩ := hok
    cases ht : p.transform {} with
    | error e =>
      rw [ht] at hok
      cases hok
    | ok t =>
      rw [ht, Except.toOption, Option.any_some] at hok
      exact ⟨p, t, rfl, ht, hok, hclosed, ⟨40, hrun⟩, transform_preserves _ none p {} t _ hp ht hok
        hclosed ⟨40, hrun⟩ (by rintro n ⟨⟩)⟩

end FlatScope
