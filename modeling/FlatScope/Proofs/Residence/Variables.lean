import FlatScope.Proofs.Residence.Values

/-!
# Variables and where they reside

What the program reads from a variable, the machine reads from the location where it resides, and
what the program writes there the machine writes to the location (`Joint.read_follows`,
`Joint.assignName_follows`, `Joint.declare_follows`). For a write, the variable must not reside
anywhere else. A variable whose declaration has not run stops the program, but not the machine.
-/

namespace FlatScope

open Process

namespace Store

variable {s : Store} {x y n : Name} {f g o : FrameId} {v : Value} {c : Cell}

/-- The cells of a store in which a variable was written. -/
theorem cell?_write_self (h : s.cell? f x = some c) :
    (s.write f x v).cell? f x = some { c with content := some v } := by
  obtain ⟨fr, hf, hx⟩ := Option.bind_eq_some_iff.1 h
  rw [cell?, getElem?_write, if_pos rfl, hf, Option.map_some, Option.bind_some,
    Frame.find?_update_self hx]

/-- The other variables stay as they are. -/
theorem cell?_write_ne (h : (g, y) ≠ (f, x)) : (s.write f x v).cell? g y = s.cell? g y := by
  rw [cell?, cell?, getElem?_write]
  split
  · rename_i hfg
    subst hfg
    cases s.frames[f]? with
    | none => rfl
    | some fr =>
      rw [Option.map_some, Option.bind_some, Option.bind_some,
        Frame.find?_update_ne fun hx => h (by rw [hx])]
  · rfl

end Store

namespace Regional.Joint

variable {i : Nat} {j j' : Joint} {a : Scoping} {globals : List Name} {fs sc : ScopeId}
  {f g : FrameId} {env : Env} {ns : List (Node Mark)} {opened : ScopeId → Prop} {x n : Name}
  {l : Location} {v : Value} {d : Binding} {used set kept : Prop}

/-! ## Other states with the same residences -/

/-- Other states. -/
def goTo (j : Joint) (s : Store) (m : Machine) : Joint := { j with store := s, machine := m }

/-- The states go on with the same residences. -/
theorem grows_goTo (hj : j.Matches) {s : Store} {m : Machine} (hs : j.store.Later s)
    (hm : j.machine.activations ≤ m.activations) : j.Grows (j.goTo s m) where
  later := hs
  home _ := .rfl
  lodging _ := .rfl
  activations := hm
  fresh hf hl := absurd (hj.placed hl).2.1 (Nat.not_lt.2 hf)

theorem closure_write (o : FrameId) (m : Machine) :
    (j.goTo (j.store.write o x v) m).closure = j.closure := rfl

/-- A variable and its location are written. -/
theorem Matches.write (hj : j.Matches) {c : Cell} (hc : j.store.cell? g x = some c)
    (hat : j.At g x l) (hset : ∀ k, j.At g x k → k = l) (hv : j.Has v) :
    (j.goTo (j.store.write g x v) (j.machine.set l v)).Matches where
  store := ⟨hj.store.size, hj.store.elements, hj.store.nans, hj.store.printed⟩
  outermost := by
    obtain ⟨b, b', hb, hb', hbb⟩ := hj.outermost
    refine ⟨b, b', ?_, hb', hbb⟩
    change (j.store.write g x v).frames[0]? = some b
    rw [Store.getElem?_write, if_neg (Nat.ne_of_gt (hj.placed hat).1)]
    exact hb
  nested := hj.nested.write g x v
  placed hk := by
    obtain ⟨hf, hlt, hact⟩ := hj.placed hk
    exact ⟨hf, (Store.extends_write j.store g x v).lt hlt, hact⟩
  agrees {f y k u b} hk hb := by
    rw [closure_write]
    change (j.store.write g x v).cell? f y = some ⟨some u, b⟩ at hb
    by_cases hfy : (f, y) = (g, x)
    · obtain ⟨rfl, rfl⟩ := Prod.mk.inj hfy
      rw [Store.cell?_write_self hc] at hb
      cases hb
      obtain rfl := hset k hk
      change v.Like j.closure ((j.machine.set k v).cells k)
      rw [Machine.set_cells_same]
      exact hv
    · rw [Store.cell?_write_ne hfy] at hb
      have hne : k ≠ l := by
        rintro rfl
        obtain ⟨rfl, rfl⟩ := hj.injective hk hat
        exact hfy rfl
      change u.Like j.closure ((j.machine.set l v).cells k)
      rw [Machine.set_cells_ne _ _ hne]
      exact hj.agrees hk hb
  injective := hj.injective
  closures := hj.closures
  represents hC hD := (hj.represents hC hD).keeps
    ((grows_goTo (m := j.machine.set l v) hj (.write ..) (Nat.le_refl _)).keeps hj)

/-- A name from outside of all functions is written on both sides. -/
theorem Matches.writeGlobal (hj : j.Matches) (hv : j.Has v) :
    (j.goTo (j.store.write 0 x v) { j.machine with store := j.machine.store.write 0 x v }).Matches
    where
  store := ⟨hj.store.size, hj.store.elements, hj.store.nans, hj.store.printed⟩
  outermost := by
    obtain ⟨b, b', hb, hb', hbb⟩ := hj.outermost
    refine ⟨b.update x v, b'.update x v, ?_, ?_, hbb.update hv⟩
    · change (j.store.write 0 x v).frames[0]? = _
      rw [Store.getElem?_write, if_pos rfl, hb]
      rfl
    · change (j.machine.store.write 0 x v).frames[0]? = _
      rw [Store.getElem?_write, if_pos rfl, hb']
      rfl
  nested := hj.nested.write 0 x v
  placed hk := by
    obtain ⟨hf, hlt, hact⟩ := hj.placed hk
    exact ⟨hf, (Store.extends_write j.store 0 x v).lt hlt, hact⟩
  agrees {f y k u b} hk hb := by
    change (j.store.write 0 x v).cell? f y = some ⟨some u, b⟩ at hb
    have hf : f ≠ 0 := Nat.ne_of_gt (hj.placed hk).1
    rw [Store.cell?_write_ne fun he => hf (Prod.mk.inj he).1] at hb
    exact hj.agrees hk hb
  injective := hj.injective
  closures := hj.closures
  represents hC hD := (hj.represents hC hD).keeps ((grows_goTo
    (m := { j.machine with store := j.machine.store.write 0 x v }) hj (.write ..)
    (Nat.le_refl _)).keeps hj)

/-! ## Looking names up -/

/-- What a name in a scope means. -/
theorem Resides.meaning (h : j.Resides a sc f env ns opened) (ha : a.Consistent) {node : NodeId}
    {isWrite : Bool} (hr : a.Refers globals sc node n isWrite) :
    (∃ d, meaning? a node = some d.id ∧ d ∈ a.bindings ∧ d.name = n ∧ j.Holds f d (env d.id)
      (opened d.scope ∨ a.UsedIn d.id ns) (opened d.scope ∨ a.WrittenIn d.id ns)
      (a.ClosesOver ns d.id) ∧ ∃ r ∈ a.references, r.binding = some d.id ∧ r.isWrite = isWrite) ∨
    meaning? a node = none ∧ j.store.Misses n f := by
  obtain ⟨r, hr, -, -, hw, hb, hglobal⟩ := hr
  rw [meaning?, hr, Option.bind_some, hb]
  cases hl : a.lookup? sc n with
  | none => exact .inr ⟨rfl, h.global hl (hglobal hl).2⟩
  | some d =>
    rw [hl] at hb
    obtain ⟨hd, hn, -⟩ := ha.of_lookup? hl
    exact .inl ⟨d, rfl, hd, hn, h.known hl, r, List.mem_of_find?_eq_some hr, hb, hw⟩

/-- The outermost frames have the same variables. -/
theorem Matches.find?_global (hj : j.Matches) (h : j.store.Misses n f) :
    j.store.find? n f = none ∧ j.machine.store.find? n 0 = none ∨ ∃ v, j.Has v ∧
      j.store.find? n f = some (0, ⟨some v, false⟩) ∧
      j.machine.store.find? n 0 = some (0, ⟨some v, false⟩) := by
  obtain ⟨b, b', hb, hb', hbb⟩ := hj.outermost
  rw [h.find? hj.nested hb hbb.left]
  rcases hbb.find? n with ⟨hx, hy⟩ | ⟨v, v', hv, hx, hy⟩
  · exact .inl ⟨by simp [Store.find?, Store.findFrom, hb, hx, hbb.left],
      by simp [Store.find?, Store.findFrom, hb', hy, hbb.right]⟩
  · obtain rfl := eq_of_like hv
    exact .inr ⟨v, hv, by simp [Store.find?, Store.findFrom, hb, hx],
      by simp [Store.find?, Store.findFrom, hb', hy]⟩

/-! ## Reading -/

/-- The value of a name. A variable that holds nothing yet stops the program. -/
theorem read_follows (hj : j.Matches) (h : j.Resides a sc f env ns opened) (ha : a.Consistent)
    {node : NodeId} {isWrite : Bool} (hr : a.Refers globals sc node n isWrite)
    (hused : ∀ b, meaning? a node = some b → a.UsedIn b ns) :
    Follows i (fun _ => .read fun s => s.get f n) (fun _ => read a node n env) j (Yields j) := by
  rcases h.meaning ha hr with ⟨d, hd, -, rfl, ⟨g, c, hg, hc, -, hat, -⟩, -⟩ | ⟨hnone, hmiss⟩
  · have hfind := hg.find? hj.nested hc
    rw [read, hd]
    obtain ⟨_ | v, b⟩ := c
    · exact .excused (s := j.store) ⟨d.name, rfl⟩ (by rw [read_eq, Store.get, hfind]; rfl)
    · have hlike := hj.agrees (hat (.inr (hused _ hd))) hc
      have heq := eq_of_like hlike
      refine .now (r := .ok v) (by rw [read_eq, Store.get, hfind]; rfl) ?_
        (.ok hj (.refl hj) (by rw [← heq] at hlike; exact hlike))
      change Outcome.done _ _ = _
      rw [← heq]
      rfl
  · rw [read, hnone]
    have hget : j.store.get f n = j.store.get 0 n := by
      obtain ⟨b, b', hb, -, hbb⟩ := hj.outermost
      rw [Store.get, Store.get, hmiss.find? hj.nested hb hbb.left]
    have hsame : Leads (fun _ => .read fun s => s.get f n) j.store
        (fun _ => .read fun s => s.get 0 n) j.store := .of_eq fun _ => by
      rw [read_eq, read_eq, hget]
    refine .leads hsame (.refl _ _) (readStore_follows hj ?_)
    rw [← hget]
    rcases hj.find?_global hmiss with ⟨hx, hy⟩ | ⟨v, hv, hx, hy⟩
    · simpa [Store.get, hx, hy] using .error _
    · simpa [Store.get, hx, hy] using .ok hv

/-! ## Writing -/

/-- Assigning to a variable. -/
theorem set_follows (hj : j.Matches) (h : j.Holds f d l used set kept) (hu : used) (hs : set)
    (hv : j.Has v) (hconst : d.origin.isConst = false) :
    Follows i (fun _ => Eval.setVariable f d.name v) (fun _ => Regional.set l v) j (Does j) := by
  obtain ⟨g, c, hg, hc, hcc, hat, hset, -⟩ := h
  have hfind := hg.find? hj.nested hc
  obtain ⟨_ | u, b⟩ := c
  · refine .excused (r := .error (.failed (.uninitialized d.name))) (s := j.store) ⟨_, rfl⟩ ?_
    rw [Eval.setVariable, changeAt, Store.setTarget, hfind]
    rfl
  · cases b with
    | true => exact absurd (hcc rfl) (by simp [hconst])
    | false =>
      refine .now (r := .ok ()) (k := j.goTo (j.store.write g d.name v) (j.machine.set l v)) ?_ rfl
        (.ok (hj.write hc (hat hu) (hset hs) hv)
          (grows_goTo hj (.write ..) (Nat.le_refl _)) trivial)
      rw [Eval.setVariable, changeAt, Store.setTarget, hfind]
      rfl

/-- Giving a variable the value of its declaration. -/
theorem start_follows (hj : j.Matches) (h : j.Holds f d l used set kept) (hu : used) (hs : set)
    (hv : j.Has v) :
    Follows i (fun _ => Eval.startVariable f d.name v) (fun _ => Regional.set l v) j (Does j) := by
  obtain ⟨g, c, hg, hc, -, hat, hset, -⟩ := h
  refine .now (r := .ok ()) (k := j.goTo (j.store.write g d.name v) (j.machine.set l v)) ?_ rfl
    (.ok (hj.write hc (hat hu) (hset hs) hv) (grows_goTo hj (.write ..) (Nat.le_refl _)) trivial)
  rw [Eval.startVariable, changeAt, Store.initialTarget, hg.find? hj.nested hc]
  rfl

/-- Assigning to a name that is not a constant. -/
theorem assignName_follows (hj : j.Matches) (h : j.Resides a sc f env ns opened)
    (ha : a.Consistent) (hconst : a.KeepsConstants) {node : NodeId}
    (hr : a.Refers globals sc node n true)
    (hwritten : ∀ b, meaning? a node = some b → a.WrittenIn b ns) (hv : j.Has v) :
    Follows i (fun _ => Eval.setVariable f n v) (fun _ => assignName a node n v env) j
      (Does j) := by
  rcases h.meaning ha hr with ⟨d, hm, hd, rfl, hholds, r, hr, hb, hw⟩ | ⟨hnone, hmiss⟩
  · have hset := hwritten _ hm
    rw [assignName, hm]
    refine set_follows hj hholds (.inr (.inl hset)) (.inr hset) hv ?_
    have hviolated := hconst r hr
    rw [Scoping.violated?, if_pos hw, hb, Option.bind_some, ha.binding?_of_mem hd,
      Option.filter_some_eq_none] at hviolated
    simpa using hviolated
  · rw [assignName, hnone]
    rcases hj.find?_global hmiss with ⟨hx, hy⟩ | ⟨u, hu, hx, hy⟩
    · refine .now (r := .error (.failed (.unknownName n))) (k := j) ?_ ?_
        (.error hj (.refl hj) ⟨_, rfl⟩)
      · rw [Eval.setVariable, changeAt, Store.setTarget, hx]
        rfl
      · simp only [onStore, Eval.setVariable, changeAt, Store.setTarget, Eval.globalFrame, hy]
        rfl
    · refine .now (r := .ok ()) (k := j.goTo (j.store.write 0 n v)
        { j.machine with store := j.machine.store.write 0 n v }) ?_ ?_
        (.ok (hj.writeGlobal hv) (grows_goTo hj (.write ..) (Nat.le_refl _)) trivial)
      · rw [Eval.setVariable, changeAt, Store.setTarget, hx]
        rfl
      · simp only [onStore, Eval.setVariable, changeAt, Store.setTarget, Eval.globalFrame, hy]
        rfl

/-- Giving the variable of a declaration a value. -/
theorem declare_follows (hj : j.Matches) (h : j.Resides a sc f env ns opened) {k : DeclKind}
    {node : NodeId} (hd : a.Declares fs sc node n k)
    (ho : opened (if k.isBlockScoped then sc else fs)) (ha : a.Consistent) (hv : j.Has v) :
    Follows i (fun _ => if k.isBlockScoped then Eval.startVariable f n v
      else Eval.setVariable f n v) (fun _ => declare a node v env) j (Does j) := by
  obtain ⟨d, hdecl, hlook, hd⟩ := hd
  have hholds := h.known hlook
  obtain ⟨-, rfl, -⟩ := ha.of_lookup? hlook
  rw [declare, hdecl]
  split at hd
  · rename_i hk
    rw [if_pos hk, ← hd.1] at ho
    simp only [if_pos hk]
    exact start_follows hj hholds (.inl ho) (.inl ho) hv
  · rename_i hk
    rw [if_neg hk, ← hd.1] at ho
    simp only [if_neg hk]
    exact set_follows hj hholds (.inl ho) (.inl ho) hv (Origin.isConst_of_isFunctionScoped hd.2)

/-! ## Closures -/

/-- A closure is made on both sides. -/
theorem Matches.newClosure (hj : j.Matches) {C : FlatScope.Closure} {D : Closure}
    (hCD : j.Represents C D) :
    (j.goTo (j.store.newClosure C).2 (j.machine.newClosure D).2).Matches ∧
      j.Grows (j.goTo (j.store.newClosure C).2 (j.machine.newClosure D).2) ∧
      (Value.closure j.store.closures.size).Like
        (j.goTo (j.store.newClosure C).2 (j.machine.newClosure D).2).closure
        (j.machine.newClosure D).1 := by
  have hgrows : j.Grows (j.goTo (j.store.newClosure C).2 (j.machine.newClosure D).2) :=
    grows_goTo hj (.newClosure ..) (Nat.le_refl _)
  have hclosure : ∀ {c d}, j.closure c = some d →
      (j.goTo (j.store.newClosure C).2 (j.machine.newClosure D).2).closure c = some d :=
    fun hc => closure_later hgrows.later hc
  refine ⟨?_, hgrows, ?_⟩
  · exact {
      store :=
        have hlike := hj.store.mono hclosure
        ⟨hlike.size, hlike.elements, hlike.nans, hlike.printed⟩
      outermost := by
        obtain ⟨b, b', hb, hb', hbb⟩ := hj.outermost
        exact ⟨b, b', hb, hb', hbb.mono hclosure⟩
      nested := hj.nested.of_eq rfl
      placed := hj.placed
      agrees := fun hl hc => (hj.agrees hl hc).mono hclosure
      injective := hj.injective
      closures := by
        change (j.store.closures.push C).size = (j.machine.closures.push D).size
        rw [Array.size_push, Array.size_push, hj.closures]
      represents := fun {i E F} hE hF => by
        refine Represents.keeps (j := j) ?_ (hgrows.keeps hj)
        change (j.store.closures.push C)[i]? = some E at hE
        change (j.machine.closures.push D)[i]? = some F at hF
        rw [Array.getElem?_push] at hE hF
        rw [← hj.closures] at hF
        split at hE
        · rename_i hi
          rw [if_pos hi] at hF
          cases hE
          cases hF
          exact hCD
        · rename_i hi
          rw [if_neg hi] at hF
          exact hj.represents hE hF }
  · change (Value.closure _).Like _ (.closure j.machine.closures.size)
    rw [← hj.closures]
    refine .closure ?_
    rw [closure, if_pos]
    simp [goTo, Store.newClosure]

/-- Making a closure. What the function uses from outside of it is at home. -/
theorem close_follows {fn : FunctionDef Mark} {a : Analysis} (hj : j.Matches)
    (h : j.Resides a.scoping sc f env ns opened) (hfn : fn.Settled globals a) {m k : Mark}
    {ps : List Name} {ss : List (Stmt Mark)} (hsrc : Stmt.AreSource ss)
    (hopens : a.scoping.OpensFunction m.id ps (.mk k ss) (some sc))
    (hres : a.scoping.ResolvedStmts globals m.id m.id false ss)
    (hin : ∀ y ∈ Stmt.nodesOfList ss, y ∈ fn.nodes ∧ m.id < y.mark.id)
    (hns : ∀ y ∈ (Expr.function m ps (.mk k ss)).nodes, y ∈ ns) :
    Follows i
      (fun _ => .make fun s => s.newClosure ⟨ps, .mk k.span (Stmt.mapList Mark.span ss), f, none⟩)
      (fun _ => close ⟨a.scoping, m.id, ps, ss, env⟩) j (Yields j) := by
  have ha := hfn.analysed.consistent
  -- what the function uses and does not declare, it uses from the scope that it stands in
  have hrep : j.Represents ⟨ps, .mk k.span (Stmt.mapList Mark.span ss), f, none⟩
      ⟨a.scoping, m.id, ps, ss, env⟩ := by
    have hbody : ∀ y ∈ Stmt.nodesOfList ss, y ∈ (Block.mk k ss).nodes := fun y hy =>
      List.mem_cons_of_mem _ hy
    have hall : ∀ y ∈ Stmt.nodesOfList ss, y ∈ ns := fun y hy =>
      hns y (List.mem_cons_of_mem _ (hbody y hy))
    refine .mk k.span none hfn hsrc hres hin hopens h.frame (fun {n d} hd hs => ?_)
      fun hn hg => h.global (ha.lookup?_outer hopens.scope hn) hg
    exact (h.known ((ha.of_lookup?_inner hopens.scope hd).resolve_left hs)).imp
      (fun hu => .inr (hu.mono hall)) (fun hw => .inr (hw.mono hall))
      fun hu => ⟨m, ps, .mk k ss, hns _ List.mem_cons_self, hu.mono hbody⟩
  obtain ⟨hj', hgrows, hvalue⟩ := hj.newClosure hrep
  have hsame := eq_of_like hvalue
  refine .now (r := .ok (.closure j.store.closures.size)) rfl ?_
    (.ok hj' hgrows (by rwa [← hsame] at hvalue))
  rw [hsame]
  rfl

end Regional.Joint

end FlatScope
