import LinkRepair.Proofs.Repair.Demands

/-!
# The sweep over expressions in another order

Which expressions are replaced is settled when the first sweep is over, and so is the report of each.
In an acyclic forest both can be told from the views of the declarations and from the place of the
expression, so they are the same in whatever order the roots are listed.

* `Planted.file_unique`    a node is below one file only;
* `Pass.Replaced`          the entry of an expression of the forest in the account;
* `Pass.Recorded`          the invariant of the second sweep: all that it enters are such entries;
* `Recorded.replaced`      a visit that finds a problem enters such an entry;
* `Outermost.perm`         with the roots in another order, the same expressions are outermost;
* `replaced_perm`          so the entries of the second sweep are the same, in some order.
-/

namespace LinkRepair

/-- the symbol that an operation refers to is among those that it mentions -/
theorem Operation.mem_mentioned_of_phrase {o : Operation} {s : SymbolId} (h : o.phrase.2 = some s) :
    s ∈ o.mentioned := by
  cases o with
  | constant | block | exit | typeOperation | variadic | choice | raise => cases h
  | readValue | writeValue | readField | writeField | objectInstance | enumInstance | classReference
    | initialization =>
    obtain rfl := Option.some.inj h
    exact List.mem_cons_self
  | call | construction | functionReference | propertyReference =>
    obtain rfl := Option.some.inj h
    simp [mentioned, accessMentioned]

namespace Forest

section
variable {F : Forest} {n : Node} {d d' : DeclarationId} {f f' : FileId}

/-- a node is below one declaration at top level only -/
theorem Planted.top_unique (hF : F.Planted) (hd : d ∈ F.tops F.fileRoots) (hd' : d' ∈ F.tops F.fileRoots)
    (h : Relation.ReflTransGen F.Child (.declaration d) n)
    (h' : Relation.ReflTransGen F.Child (.declaration d') n) : d = d' := by
  have hreached : ∀ {d n}, d ∈ F.tops F.fileRoots → Relation.ReflTransGen F.Child (.declaration d) n →
      F.Reached n := fun hd h => ⟨_, hd, h⟩
  induction h with
  | refl =>
    rcases h'.cases_tail with heq | ⟨b, hb, hchild⟩
    · exact Node.declaration.inj heq
    · exact absurd hchild (hF.not_below d b hd (hreached hd' hb))
  | @tail b n hb hchild ih =>
    rcases h'.cases_tail with rfl | ⟨b', hb', hchild'⟩
    · exact absurd hchild (hF.not_below d' b hd' (hreached hd hb))
    · obtain rfl := hF.container b b' n (hreached hd hb) (hreached hd' hb') hchild hchild'
      exact ih hb'

/-- **A node is below one file only.** -/
theorem Planted.file_unique (hF : F.Planted) (hf : Root.file f ∈ F.fileRoots)
    (hf' : Root.file f' ∈ F.fileRoots) (h : F.Reaches [.file f] n) (h' : F.Reaches [.file f'] n) :
    f = f' := by
  obtain ⟨d, hd, hpath⟩ := h
  obtain ⟨d', hd', hpath'⟩ := h'
  have htop : ∀ {f d}, Root.file f ∈ F.fileRoots → d ∈ F.tops [.file f] →
      d ∈ F.rootDeclarations (.file f) ∧ d ∈ F.tops F.fileRoots := fun {f d} hf hd => by
    have hd : d ∈ F.rootDeclarations (.file f) := by simpa [tops] using hd
    exact ⟨hd, List.mem_flatMap.mpr ⟨_, hf, hd⟩⟩
  obtain ⟨hd, htops⟩ := htop hf hd
  obtain ⟨hd', htops'⟩ := htop hf' hd'
  obtain rfl := hF.top_unique htops htops' hpath hpath'
  by_contra hne
  have : Std.Symm (Function.onFun List.Disjoint F.rootDeclarations) := ⟨fun _ _ h _ hb ha => h ha hb⟩
  have hdisjoint := (List.nodup_flatMap.mp hF.tops_nodup).2.forall hf hf' fun e => hne (Root.file.inj e)
  exact hdisjoint hd hd'

end

end Forest

/-- what entries for expressions are about -/
theorem map_filterMap_expression? {l : List Repair} (h : ∀ rep ∈ l, ∃ e, rep.node = .expression e) :
    (l.filterMap fun rep => rep.node.expression?).map Node.expression = l.map Repair.node := by
  induction l with
  | nil => rfl
  | cons rep l ih =>
    obtain ⟨e, he⟩ := h rep List.mem_cons_self
    have hsome : rep.node.expression? = some e := by rw [he]; rfl
    rw [List.filterMap_cons_some (f := fun rep : Repair => rep.node.expression?) hsome,
      List.map_cons, List.map_cons, he, ih fun rep hrep => h rep (List.mem_cons_of_mem _ hrep)]

namespace Pass

/-- an entry of the account for an expression of `F`, with the problem that is found in `G` -/
def Replaced (cx : Context) (F G : Forest) (roots : List Root) (rep : Repair) : Prop :=
  ∃ e x problem f, rep = ⟨.expression e, problem,
      ⟨cx.severity, F.problemText problem, F.expressionLocation (some f) e⟩⟩
    ∧ .file f ∈ roots ∧ F.Reaches [.file f] (.expression e) ∧ F.expression? e = some x
    ∧ x.demands.findSome? (F.plainProblem G e) = some problem

/-- from `p` the second sweep has come to `q` -/
structure Recorded (cx : Context) (F : Forest) (roots : List Root) (p q : Pass) : Prop where
  rewrites : Rewrites cx.intrinsics roots p q
  replies : F.Replies p.forest q.memo
  entries : ∃ l, q.repairs = p.repairs ++ l ∧ ∀ rep ∈ l, Replaced cx F p.forest roots rep

section
variable {cx : Context} {F : Forest} {roots : List Root} {p q : Pass} {e : ExpressionId} {n : Node}
  {x : Expression} {f : FileId}

/-- an expression demands nothing but what it names -/
theorem within_demands (hE : F.Entire) (hx : F.expression? e = some x) :
    ∀ demand ∈ x.demands, demand.Within F := fun _ hdemand s hs =>
  hE.spoken e x hx s ((x.mem_demands_iff s).mp (List.mem_flatMap.mpr ⟨_, hdemand, hs⟩))

/-- what is faulty was there -/
theorem Faulty.stores (h : p.Faulty (.expression e)) (hg : p.Grafted cx.intrinsics True F)
    (hr : cx.intrinsics.Ready p) (hs : p.memo.Sound p.forest) : F.Stores (.expression e) := by
  by_contra hnone
  have hnone : F.expression? e = none := by simpa [Forest.Stores] using hnone
  refine h ((Forest.expressionProblem_fst_eq_none_iff hs).mpr fun x hx => ?_)
  cases hg.inserted e x hnone hx with
  | call span _ => exact hr.not_unmet_callWith span _
  | argument span message => exact hr.not_unmet_messageArgument span message

variable (hE : F.Entire) (hA : F.Acyclic) (hp : p.Plain cx.intrinsics F)
include hE hA hp

/-- the problem of an expression, by the recursion -/
theorem Plain.expressionProblem_eq (hx : F.expression? e = some x) :
    (p.forest.expressionProblem p.memo e).1 = x.demands.findSome? (F.plainProblem p.forest e) := by
  have hF := hA.founds hE.needsKnown
  have hreplies : F.Replies p.forest p.memo := ⟨hp.memo, hp.stands⟩
  unfold Forest.expressionProblem
  rw [hp.frames.expression? e x hx]
  exact (hreplies.firstProblem hF).2 fun demand hd => hp.asksWithin hE (within_demands hE hx demand hd)

/-! ## one visit -/

/-- what is asked about an expression, in the second sweep -/
theorem Recorded.expressionProblem (h : Recorded cx F roots p q) :
    F.Replies p.forest (q.forest.expressionProblem q.memo e).2
      ∧ ∀ x, F.expression? e = some x → q.forest.expression? e = some x →
        (q.forest.expressionProblem q.memo e).1 = x.demands.findSome? (F.plainProblem p.forest e) := by
  have hF := hA.founds hE.needsKnown
  cases hx : q.forest.expression? e with
  | none =>
    refine ⟨?_, fun x _ hx' => by cases hx'⟩
    unfold Forest.expressionProblem
    rw [hx]
    exact h.replies
  | some x =>
    have heq : q.forest.expressionProblem q.memo e = p.forest.firstProblem e q.memo x.demands := by
      rw [h.rewrites.forest]
      exact Forest.expressionProblem_expressions hx
    rw [heq]
    refine ⟨(h.replies.firstProblem hF).1, fun y hy hyx => ?_⟩
    obtain rfl := Option.some.inj hyx
    exact (h.replies.firstProblem hF).2 fun demand hd => hp.asksWithin hE (within_demands hE hy demand hd)

variable (hg : p.Grafted cx.intrinsics True F) (hr : cx.intrinsics.Ready p)
include hg hr

/-- a problem that is found in the second sweep is that of an outermost faulty expression, and has the
wording that it would have had at the start -/
theorem Recorded.replaced (h : Recorded cx F roots p q) (hf : .file f ∈ roots)
    (hbelow : F.Stores (.expression e) → F.Reaches [.file f] (.expression e)) (problem : Problem)
    (hout : p.Outermost roots e) (hmem : e ∉ q.rewritten)
    (hfound : (q.forest.expressionProblem q.memo e).1 = some problem) :
    Replaced cx F p.forest roots ⟨.expression e, problem,
      ⟨cx.severity, q.forest.problemText problem, q.forest.expressionLocation (some f) e⟩⟩ := by
  have hstored := hout.1.stores hg hr hp.sound
  obtain ⟨x, hx⟩ := Option.isSome_iff_exists.mp hstored
  have hxq := h.rewrites.kept e x (hp.frames.expression? e x hx) hmem
  replace hfound := ((h.expressionProblem hE hA hp).2 x hx hxq).symm.trans hfound
  have hwords : F.Words q.forest := by
    have := hp.frames.words
    rw [h.rewrites.forest]
    exact ⟨this.name, this.files, this.symbol?, this.declaration?⟩
  obtain ⟨demand, hdemand, hdp⟩ := List.exists_of_findSome?_eq_some hfound
  have hwithin := within_demands hE hx demand hdemand
  have habout : problem.About F e := by
    refine Forest.about_plainProblem hE.needsKnown hwithin (hp.asksWithin hE hwithin) ?_ hdp
    rintro s d rfl ho
    obtain ⟨z, hz, _⟩ := hp.owner hE (hwithin s (List.mem_singleton_self s)) ho
    exact ⟨z, hz, hE.symbols d z hz⟩
  have htext : q.forest.problemText problem = F.problemText problem :=
    hwords.expressionProblemText hE.owners habout ⟨x, hx, fun s hs => hE.spoken e x hx s
      (List.mem_append_right _ (Operation.mem_mentioned_of_phrase hs))⟩ (hxq.trans hx.symm)
  have hlocation : q.forest.expressionLocation (some f) e = F.expressionLocation (some f) e :=
    hwords.expressionLocation (some f) (hxq.trans hx.symm)
  rw [htext, hlocation]
  exact ⟨e, x, problem, f, rfl, hf, hbelow hstored, hx, hfound⟩

/-- **One visit** enters the problem of an expression into the account, or goes on. -/
theorem Recorded.enterExpression (h : Recorded cx F roots p q) (hf : .file f ∈ roots)
    (hn : p.Visitable roots n) (hbelow : F.Stores n → F.Reaches [.file f] n) :
    Recorded cx F roots p (Pass.enterExpression cx (some f) q n).1
      ∧ ∀ m ∈ (Pass.enterExpression cx (some f) q n).2, p.Visitable roots m
        ∧ (F.Stores m → F.Reaches [.file f] m) := by
  obtain ⟨hrewrites, hvisitable, _, _⟩ := h.rewrites.enterExpression hr hp.sound (some f) hn
  have hdown : ∀ m, F.Stores m → F.Child n m → F.Reaches [.file f] m := fun m hm hchild => by
    obtain ⟨d, hd, hpath⟩ := hbelow hchild.stores
    exact ⟨d, hd, hpath.tail hchild⟩
  cases n with
  | declaration d =>
    refine ⟨h, fun m hm => ⟨hvisitable m hm, fun hstored => hdown m hstored ?_⟩⟩
    replace hm : m ∈ q.forest.children (.declaration d) := hm
    rw [h.rewrites.children_declaration] at hm
    exact hg.mem_children hstored hm
  | expression e =>
    have hreplies := (h.expressionProblem hE hA hp (e := e)).1
    have houtermost := h.rewrites.outermost_of_problem hr hp.sound hn
    have hentry := h.replaced hE hA hp hg hr hf hbelow
    unfold Pass.enterExpression at hrewrites hvisitable ⊢
    dsimp only at hrewrites hvisitable ⊢
    generalize q.forest.expressionProblem q.memo e = found
      at hreplies hentry houtermost hrewrites hvisitable
    obtain ⟨_ | problem, m'⟩ := found
    · refine ⟨⟨hrewrites, hreplies, h.entries⟩, fun m hm => ⟨hvisitable m hm, fun hstored => ?_⟩⟩
      replace hm : m ∈ q.forest.children (.expression e) := hm
      rcases h.rewrites.children_expression (e := e) with ⟨_, hchildren⟩ | hnew
      · rw [hchildren] at hm
        exact hdown m hstored (hg.mem_children hstored hm)
      · obtain ⟨a, rfl, ha⟩ := hnew m hm
        replace hstored : (F.expression? a).isSome := hstored
        rw [show F.expression? a = none from hp.frames.expression?_none ha] at hstored
        cases hstored
    · refine ⟨⟨hrewrites, hreplies, ?_⟩, fun m hm => absurd hm List.not_mem_nil⟩
      obtain ⟨hout, hmem⟩ := houtermost (Option.some_ne_none problem)
      obtain ⟨l, hl, hentries⟩ := h.entries
      refine ⟨l ++ [⟨.expression e, problem,
        ⟨cx.severity, q.forest.problemText problem, q.forest.expressionLocation (some f) e⟩⟩], ?_, ?_⟩
      · rw [← List.append_assoc, ← hl]
        rfl
      · intro rep hrep
        rcases List.mem_append.mp hrep with hrep | hrep
        · exact hentries rep hrep
        · rw [List.mem_singleton.mp hrep]
          exact hentry problem hout hmem rfl

/-! ## the whole sweep -/

theorem Recorded.sweepExpressions (h : Recorded cx F roots p q) (hf : .file f ∈ roots) :
    Recorded cx F roots p (q.sweepExpressions cx (.file f)) := by
  unfold Pass.sweepExpressions
  generalize sweepDepth q.forest = depth
  generalize htops : (q.forest.rootDeclarations (.file f)).map Node.declaration = tops
  have hrun : Run (Pass.enterExpression cx (some f)) tops q
      (visitsAll (Pass.enterExpression cx (some f)) depth q tops) _ :=
    run_walkAll depth tops .start (List.Subset.refl tops)
  refine (hrun.invariant (P := Recorded cx F roots p)
    (N := fun _ n => p.Visitable roots n ∧ (F.Stores n → F.Reaches [.file f] n))
    (fun s n hs hn => hs.enterExpression hE hA hp hg hr hf hn.1 hn.2) (fun _ _ _ _ _ hn => hn) h ?_).1
  intro n hn
  rw [← htops, h.rewrites.rootDeclarations] at hn
  obtain ⟨d, hd, rfl⟩ := List.mem_map.mp hn
  refine ⟨.inl ⟨d, List.mem_flatMap.mpr ⟨_, hf, hd⟩, .refl⟩, fun _ => ⟨d, ?_, .refl⟩⟩
  have hroot : p.forest.rootDeclarations (.file f) = F.rootDeclarations (.file f) :=
    Forest.rootDeclarations_of_files hp.frames.files _
  rw [hroot] at hd
  simpa [Forest.tops] using hd

/-- **All that the second sweep enters into the account are replaced expressions.** -/
theorem Recorded.repairExpressions : ∀ {rest : List Root} {q : Pass}, Recorded cx F roots p q →
    (∀ root ∈ rest, root ∈ roots ∧ ∃ f, root = .file f) →
    Recorded cx F roots p (LinkRepair.repairExpressions cx rest q) := by
  intro rest
  induction rest with
  | nil => exact fun h _ => h
  | cons root rest ih =>
    intro q h hrest
    obtain ⟨hroot, f, rfl⟩ := hrest root List.mem_cons_self
    exact ih (h.sweepExpressions hE hA hp hg hr hroot) fun r hr => hrest r (List.mem_cons_of_mem _ hr)

end

/-! ## another order -/

section
variable {cx : Context} {F : Forest} {roots roots' : List Root} {p q : Pass} {e : ExpressionId} {n : Node}
  (hE : F.Entire) (hA : F.Acyclic)
include hE hA

omit hA in
/-- where the views are the same, an expression has the same problem -/
theorem Alike.findSome?_demands {I : Intrinsics} (h : Alike I F (fun a => (F.declaration? a).isSome) p q)
    {x : Expression} (hx : F.expression? e = some x) :
    x.demands.findSome? (F.plainProblem p.forest e) = x.demands.findSome? (F.plainProblem q.forest e) :=
  findSome?_congr fun demand hd => h.plainProblem_eq hE (within_demands hE hx demand hd)

/-- where the views are the same, the same expressions are faulty -/
theorem Alike.faulty (h : Alike cx.intrinsics F (fun a => (F.declaration? a).isSome) p q)
    (hn : F.Stores n) : p.Faulty n ↔ q.Faulty n := by
  cases n with
  | declaration d => exact Iff.rfl
  | expression e =>
    obtain ⟨x, hx⟩ := Option.isSome_iff_exists.mp hn
    show (p.forest.expressionProblem p.memo e).1 ≠ none ↔ (q.forest.expressionProblem q.memo e).1 ≠ none
    rw [h.left.expressionProblem_eq hE hA hx, h.right.expressionProblem_eq hE hA hx,
      h.findSome?_demands hE hx]

/-- so the same are outermost, with the roots in whatever order -/
theorem Outermost.perm (h : Alike cx.intrinsics F (fun a => (F.declaration? a).isSome) p q)
    (hp : p.Grafted cx.intrinsics True F) (hr : cx.intrinsics.Ready p) (hperm : roots.Perm roots')
    (he : p.Outermost roots e) : q.Outermost roots' e := by
  have hadmits : ∀ {n}, p.Admits roots n → F.Stores n → q.Admits roots' n := by
    rintro n ⟨d, hd, hpath⟩
    have hd' : d ∈ q.forest.tops roots' := by
      have htop : ∀ {s : Pass}, s.Plain cx.intrinsics F → s.forest.tops roots' = F.tops roots' :=
        fun hs => List.flatMap_congr fun root _ => Forest.rootDeclarations_of_files hs.frames.files root
      rw [htop h.right, ← htop h.left]
      exact Forest.tops_subset hperm.subset hd
    induction hpath with
    | refl => exact fun _ => ⟨d, hd', .refl⟩
    | @tail b n _ hopen ih =>
      intro hn
      have hbelow : F.Child b n := hp.mem_children hn hopen.2
      obtain ⟨c, hc, hpath⟩ := ih hbelow.stores
      refine ⟨c, hc, hpath.tail ⟨fun hf => hopen.1 ((h.faulty hE hA hbelow.stores).mpr hf), ?_⟩⟩
      have hchild := hopen.2
      cases b with
      | declaration b => exact (Forest.mem_children_view (h.view b hbelow.stores) hn).mp hchild
      | expression a =>
        obtain ⟨x, hx⟩ := Option.isSome_iff_exists.mp hbelow.stores
        unfold Forest.Child at hchild ⊢
        rwa [Forest.children_expression (h.right.frames.expression? a x hx),
          ← Forest.children_expression (h.left.frames.expression? a x hx)]
  have hstored := he.1.stores hp hr h.left.sound
  exact ⟨(h.faulty hE hA hstored).mp he.1, hadmits he.2 hstored⟩

omit hA in
/-- the entry of an expression depends on the expression only -/
theorem Replaced.unique (hF : F.Planted) (h : Alike cx.intrinsics F (fun a => (F.declaration? a).isSome) p q)
    (hroots : roots ⊆ F.fileRoots) (hroots' : roots' ⊆ F.fileRoots) {rep rep' : Repair}
    (hrep : Replaced cx F p.forest roots rep) (hrep' : Replaced cx F q.forest roots' rep')
    (hnode : rep.node = rep'.node) : rep = rep' := by
  obtain ⟨e, x, problem, f, rfl, hf, hbelow, hx, hproblem⟩ := hrep
  obtain ⟨e', x', problem', f', rfl, hf', hbelow', hx', hproblem'⟩ := hrep'
  obtain rfl := Node.expression.inj hnode
  obtain rfl := Option.some.inj (hx.symm.trans hx')
  obtain rfl := hF.file_unique (hroots hf) (hroots' hf') hbelow hbelow'
  rw [← h.findSome?_demands hE hx, hproblem] at hproblem'
  rw [Option.some.inj hproblem']

variable (hF : F.Planted) (hroots : roots.Subperm F.fileRoots) (hk : F.KindCorrect roots)
  (hI : cx.intrinsics.Intact F)
include hF hroots hk hI

omit hF in
/-- the entries of the second sweep, one for each outermost expression -/
theorem exists_replaced : ∃ l, (repair cx roots F).repairs
      = (repairDeclarations cx roots (.start F)).repairs ++ l
    ∧ (l.map Repair.node).Nodup
    ∧ (∀ rep ∈ l, Replaced cx F (repairDeclarations cx roots (.start F)).forest roots rep)
    ∧ ∀ e, (repairDeclarations cx roots (.start F)).Outermost roots e
      ↔ ∃ rep ∈ l, rep.node = .expression e := by
  have hplain := (plain_visit cx roots hE hA).1
  have hgrafted := (grafted_visit cx hk.bequests hE.parents).1.1
  have hready := hI.ready hE.parents (chain_repairDeclarations cx roots (.start F))
  have hrewritten := rewritten_repairDeclarations cx roots F
  have hstart : Recorded cx F roots (repairDeclarations cx roots (.start F))
      (repairDeclarations cx roots (.start F)) :=
    ⟨.refl hrewritten, ⟨hplain.memo, hplain.stands⟩, [], (List.append_nil _).symm,
      fun _ h => absurd h List.not_mem_nil⟩
  have hfiles : ∀ root ∈ roots, root ∈ roots ∧ ∃ f, root = .file f := fun root hroot => by
    obtain ⟨f, _, rfl⟩ := List.mem_map.mp (hroots.subset hroot)
    exact ⟨hroot, f, rfl⟩
  have hrecorded := hstart.repairExpressions hE hA hplain hgrafted hready hfiles
  have hmem := mem_rewritten_repair hI hE.parents roots
  have hnodup := (rewrites_repair hI hE.parents roots).nodup
  obtain ⟨l, hl, hentries⟩ := hrecorded.entries
  refine ⟨l, hl, ?_, hentries, fun e => ?_⟩
  all_goals
    -- the expressions that were replaced are those of the new entries
    have hnodes : (repair cx roots F).rewritten = l.filterMap fun rep => rep.node.expression? := by
      have : (repairDeclarations cx roots (.start F)).rewritten = [] := hrewritten
      show ((repair cx roots F).repairs).filterMap _ = _
      rw [show (repair cx roots F).repairs = _ from hl, List.filterMap_append]
      show (repairDeclarations cx roots (.start F)).rewritten ++ _ = _
      rw [this, List.nil_append]
  · rw [hnodes] at hnodup
    rw [← map_filterMap_expression? fun rep hrep => ?_]
    · exact hnodup.map fun _ _ => Node.expression.inj
    · obtain ⟨e, _, _, _, rfl, _⟩ := hentries rep hrep
      exact ⟨e, rfl⟩
  · rw [← hmem e, hnodes, List.mem_filterMap]
    refine exists_congr fun rep => and_congr_right fun _ => ?_
    cases rep.node with
    | declaration d => simp [Node.expression?]
    | expression a => simp [Node.expression?]

/-- **The entries of the second sweep are the same in another order of the roots**, up to their own. -/
theorem replaced_perm (hperm : roots.Perm roots') : ∃ l l',
    (repair cx roots F).repairs = (repairDeclarations cx roots (.start F)).repairs ++ l
      ∧ (repair cx roots' F).repairs = (repairDeclarations cx roots' (.start F)).repairs ++ l'
      ∧ l.Perm l' := by
  have hroots' := hperm.symm.subperm.trans hroots
  have hk' := hk.perm hperm
  obtain ⟨l, hl, hnodup, hentries, hmem⟩ := exists_replaced hE hA hroots hk hI
  obtain ⟨l', hl', hnodup', hentries', hmem'⟩ := exists_replaced hE hA hroots' hk' hI
  have halike : ∀ {roots roots' : List Root}, roots.Subperm F.fileRoots → F.KindCorrect roots →
      roots.Perm roots' → Alike cx.intrinsics F (fun a => (F.declaration? a).isSome)
        (repairDeclarations cx roots (.start F)) (repairDeclarations cx roots' (.start F)) :=
    fun hroots hk hperm => ⟨(plain_visit cx _ hE hA).1, (plain_visit cx _ hE hA).1, fun _ ha => ha,
      fun _ ha => view_perm hE hA hF hroots hk hperm ha⟩
  have hready : ∀ roots, cx.intrinsics.Ready (repairDeclarations cx roots (.start F)) := fun roots =>
    hI.ready hE.parents (chain_repairDeclarations cx roots (.start F))
  have hsub : ∀ {roots roots' : List Root} {l l' : List Repair}, roots.Subperm F.fileRoots →
      F.KindCorrect roots → roots.Perm roots' → roots' ⊆ F.fileRoots →
      (∀ rep ∈ l, Replaced cx F (repairDeclarations cx roots (.start F)).forest roots rep) →
      (∀ rep ∈ l', Replaced cx F (repairDeclarations cx roots' (.start F)).forest roots' rep) →
      (∀ e, (repairDeclarations cx roots (.start F)).Outermost roots e
        ↔ ∃ rep ∈ l, rep.node = .expression e) →
      (∀ e, (repairDeclarations cx roots' (.start F)).Outermost roots' e
        ↔ ∃ rep ∈ l', rep.node = .expression e) → l ⊆ l' := by
    intro roots roots' l l' hroots hk hperm hroots' hentries hentries' hmem hmem' rep hrep
    have hgrafted := (grafted_visit cx hk.bequests hE.parents).1.1
    have hentry := hentries rep hrep
    obtain ⟨e, _, _, _, hnode, _⟩ := id hentry
    have hnode : rep.node = .expression e := by rw [hnode]
    have hout := ((hmem e).mpr ⟨rep, hrep, hnode⟩).perm hE hA (halike hroots hk hperm) hgrafted
      (hready roots) hperm
    obtain ⟨rep', hrep', hnode'⟩ := (hmem' e).mp hout
    rwa [hentry.unique hE hF (halike hroots hk hperm) hroots.subset hroots' (hentries' rep' hrep')
      (hnode.trans hnode'.symm)]
  refine ⟨l, l', hl, hl', (List.perm_ext_iff_of_nodup (List.Nodup.of_map _ hnodup)
    (List.Nodup.of_map _ hnodup')).mpr fun rep => ⟨fun h => ?_, fun h => ?_⟩⟩
  · exact hsub hroots hk hperm hroots'.subset hentries hentries' hmem hmem' h
  · exact hsub hroots' hk' hperm.symm hroots.subset hentries' hentries hmem' hmem h

end

end Pass

end LinkRepair
