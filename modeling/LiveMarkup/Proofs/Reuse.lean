import LiveMarkup.Proofs.Engines
import LiveMarkup.Proofs.Registry

/-! A definition of a recursive template and a use of it. Both expand the same fragment in the same
scope and differ in what the registry holds for the name; the registry is asked for a source only
where a repetition has hidden the one that is bound. -/
namespace LiveMarkup

/-- Every other name has the same definition in both. -/
def Registry.SameApart (name : String) (r r' : Registry) : Prop :=
  ∀ key, key ≠ name → Entries.get? key r = Entries.get? key r'

theorem Registry.sameApart_register (r : Registry) (name : String) (definition : Definition) :
    r.SameApart name (r.register name definition).2 := fun key hkey => by
  rw [Registry.register, Entries.get?_put, if_neg hkey.symm]

theorem Expansion.sourcePath?_of_sameApart {name : String} {r r' : Registry} {scope : Scope}
    {source : Source} (hsame : r.SameApart name r')
    (hbound : source = .recursive name →
      ∃ path, scope.find? (sourceBinding name) = some (.string path)) :
    sourcePath? r scope source = sourcePath? r' scope source := by
  cases source with
  | path path => rfl
  | missing => rfl
  | recursive other =>
    by_cases hother : other = name
    · subst hother
      obtain ⟨path, hpath⟩ := hbound rfl
      rw [sourcePath?, sourcePath?, hpath]
    · rw [sourcePath?, sourcePath?, hsame other hother]

/-- A meaning leaves registries as they are and gives the same trees from both. -/
def Meaning.Alike (r r' : Registry) (meaning : Meaning) : Prop :=
  meaning.Keeps ∧ (meaning r).1 = (meaning r').1

theorem Meaning.closed_alike (r r' : Registry) : Closed (Alike r r') where
  nothing := ⟨closed_keeps.nothing, rfl⟩
  join {first second} h h' := by
    refine ⟨closed_keeps.join h.1 h'.1, ?_⟩
    change (first r).1 ++ (second (first r).2).1 = (first r').1 ++ (second (first r').2).1
    rw [h.1, h.1, h.2, h'.2]

namespace Template

mutual

/-- Every repetition over the source of a recursive template that is met finds a path bound to it;
in the scope that a definition or use with a source opens, this fails only below repetitions that
bind the name of the source themselves. -/
def FindsSource (s : Settings) (model : Value) (registry : Registry) (name : String) :
    Template → Scope → Prop
  | element _ _ _ children, scope => FindsSourceAll s model registry name children scope
  | repetition source binding children, scope =>
    (source = .recursive name →
      ∃ path, scope.find? (sourceBinding name) = some (.string path)) ∧
    ∀ path, Expansion.sourcePath? registry scope source = some path →
      ∀ item ∈ Expansion.itemsAt path model scope, FindsSourceAll s model registry name children
        (scope.child.bind (binding.getD s.defaultBinding) item)
  | conditional test children, scope =>
    Expansion.holds test model scope = true →
      FindsSourceAll s model registry name children scope
  | recursive _ _ _ children, scope => FindsSourceAll s model registry name children scope

def FindsSourceAll (s : Settings) (model : Value) (registry : Registry) (name : String) :
    Fragment → Scope → Prop
  | [], _ => True
  | t :: rest, scope =>
    t.FindsSource s model registry name scope ∧ FindsSourceAll s model registry name rest scope

end

mutual

/-- No repetition binds its items to a name. -/
def Spares (s : Settings) (key : String) : Template → Prop
  | element _ _ _ children => SparesAll s key children
  | repetition _ binding children => binding.getD s.defaultBinding ≠ key ∧ SparesAll s key children
  | conditional _ children => SparesAll s key children
  | recursive _ _ _ children => SparesAll s key children

def SparesAll (s : Settings) (key : String) : Fragment → Prop
  | [] => True
  | t :: rest => t.Spares s key ∧ SparesAll s key rest

end

variable {s : Settings} {model : Value} {uses uses' : Fragment → Scope → Meaning} {t : Template}
  {fragment : Fragment} {scope : Scope} {name : String} {r r' : Registry}

theorem findsSourceAll_iff : FindsSourceAll s model r name fragment scope ↔
    ∀ t ∈ fragment, t.FindsSource s model r name scope := by
  induction fragment with
  | nil => simp [FindsSourceAll]
  | cons t rest ih => simp [FindsSourceAll, ih]

theorem sparesAll_iff {key : String} :
    SparesAll s key fragment ↔ ∀ t ∈ fragment, t.Spares s key := by
  induction fragment with
  | nil => simp [SparesAll]
  | cons t rest ih => simp [SparesAll, ih]

/-- A source that no repetition hides is found everywhere. -/
theorem findsSource_of_spares (ht : t.Spares s (sourceBinding name))
    (hbound : ∃ path, scope.find? (sourceBinding name) = some (.string path)) :
    t.FindsSource s model r name scope := by
  induction t using Template.induction generalizing scope with
  | element tag attributes text children ih =>
    exact findsSourceAll_iff.2 fun t h => ih t h (sparesAll_iff.1 ht t h) hbound
  | repetition source binding children ih =>
    refine ⟨fun _ => hbound, fun path _ item _ => findsSourceAll_iff.2 fun t h => ?_⟩
    refine ih t h (sparesAll_iff.1 ht.2 t h) ?_
    rwa [Scope.find?_bind, if_neg ht.1, Scope.find?_child]
  | conditional test children ih =>
    exact fun _ => findsSourceAll_iff.2 fun t h => ih t h (sparesAll_iff.1 ht t h) hbound
  | recursive name target source children ih =>
    exact findsSourceAll_iff.2 fun t h => ih t h (sparesAll_iff.1 ht t h) hbound

theorem denoteAll_congr
    (h : ∀ t ∈ fragment, ∀ scope, denote s model uses t scope = denote s model uses' t scope)
    (scope : Scope) :
    denoteAll s model uses fragment scope = denoteAll s model uses' fragment scope := by
  induction fragment with
  | nil => rfl
  | cons t rest ih =>
    rw [denoteAll, denoteAll, h t (List.mem_cons_self ..),
      ih fun u hu => h u (List.mem_cons_of_mem _ hu)]

/-- Without recursive templates it does not matter what uses do. -/
theorem denote_of_nonrecursive (ht : t.Nonrecursive) (scope : Scope) :
    denote s model uses t scope = denote s model uses' t scope := by
  induction t using Template.induction generalizing scope with
  | element tag attributes text children ih =>
    funext registry
    rw [denote, denote, denoteAll_congr fun t h => ih t h (nonrecursiveAll_iff.1 ht t h)]
  | repetition source binding children ih =>
    funext registry
    rw [denote, denote]
    simp only [denoteAll_congr fun t h => ih t h (nonrecursiveAll_iff.1 ht t h)]
  | conditional test children ih =>
    rw [denote, denote, denoteAll_congr fun t h => ih t h (nonrecursiveAll_iff.1 ht t h)]
  | recursive name target source children ih => cases ht

theorem denoteAll_of_nonrecursive (h : NonrecursiveAll fragment) (scope : Scope) :
    denoteAll s model uses fragment scope = denoteAll s model uses' fragment scope :=
  denoteAll_congr (fun t ht => denote_of_nonrecursive (nonrecursiveAll_iff.1 h t ht)) scope

theorem denoteAll_keeps (h : NonrecursiveAll fragment) (scope : Scope) :
    (denoteAll s model uses fragment scope).Keeps :=
  Meaning.closed_keeps.denoteAll (fun t ht => denote_keeps (nonrecursiveAll_iff.1 h t ht)) scope

theorem alike_denoteAll
    (h : ∀ t ∈ fragment, Meaning.Alike r r' (denote s model uses t scope)) :
    Meaning.Alike r r' (denoteAll s model uses fragment scope) := by
  induction fragment with
  | nil =>
    rw [denoteAll]
    exact (Meaning.closed_alike r r').nothing
  | cons t rest ih =>
    rw [denoteAll]
    exact (Meaning.closed_alike r r').join (h t (List.mem_cons_self ..))
      (ih fun u hu => h u (List.mem_cons_of_mem _ hu))

/-- Where every source is found bound, the definition of the name does not matter. -/
theorem alike_denote (hsame : r.SameApart name r') (ht : t.Nonrecursive)
    (hfinds : t.FindsSource s model r name scope) :
    Meaning.Alike r r' (denote s model uses t scope) := by
  induction t using Template.induction generalizing scope with
  | element tag attributes text children ih =>
    have hchildren : Meaning.Alike r r' (denoteAll s model uses children scope) :=
      alike_denoteAll fun t h =>
        ih t h (nonrecursiveAll_iff.1 ht t h) (findsSourceAll_iff.1 hfinds t h)
    refine ⟨denote_keeps ht scope, ?_⟩
    rw [denote]
    dsimp only
    rw [hchildren.2]
  | repetition source binding children ih =>
    obtain ⟨hbound, hitems⟩ := hfinds
    refine ⟨denote_keeps ht scope, ?_⟩
    rw [denote]
    dsimp only
    rw [← Expansion.sourcePath?_of_sameApart hsame hbound]
    cases hpath : Expansion.sourcePath? r scope source with
    | none => rfl
    | some path =>
      refine ((Meaning.closed_alike r r').gather fun item hitem => ?_).2
      exact alike_denoteAll fun t h => ih t h (nonrecursiveAll_iff.1 ht t h)
        (findsSourceAll_iff.1 (hitems path hpath item hitem) t h)
  | conditional test children ih =>
    rw [denote]
    split
    · next hholds =>
      exact alike_denoteAll fun t h =>
        ih t h (nonrecursiveAll_iff.1 ht t h) (findsSourceAll_iff.1 (hfinds hholds) t h)
    · exact (Meaning.closed_alike r r').nothing
  | recursive name target source children ih => cases ht

end Template

/-- The engine with a name defined. -/
def Engine.define (engine : Engine) (name : String) (definition : Definition) : Engine :=
  { engine with registry := (engine.registry.register name definition).2 }

/-- The trees of a fragment without recursive templates, under a source for a name. -/
def Engine.fragmentTrees (engine : Engine) (name : String) (source : Option String)
    (fragment : Fragment) (model : Value) (scope : Scope) : List Tree :=
  (Template.denoteAll engine.settings model (fun _ _ => .nothing) fragment
    (Expansion.sourceFrame scope name source) engine.registry).1

namespace Engine

variable {engine : Engine} {name : String} {definition : Definition}

theorem get?_define :
    Entries.get? name (engine.define name definition).registry = some definition := by
  rw [define, Registry.register, Entries.get?_put, if_pos rfl]

/-- Where every source is found bound, it does not matter how the name is defined. -/
theorem fragmentTrees_define {source : Option String} {children : Fragment} {model : Value}
    {scope : Scope} (hplain : Template.NonrecursiveAll children)
    (hfinds : Template.FindsSourceAll engine.settings model engine.registry name children
      (Expansion.sourceFrame scope name source)) (definition : Definition) :
    (engine.define name definition).fragmentTrees name source children model scope =
      engine.fragmentTrees name source children model scope := by
  have hsame := engine.registry.sameApart_register name definition
  exact (Template.alike_denoteAll fun t ht => Template.alike_denote hsame
    (Template.nonrecursiveAll_iff.1 hplain t ht)
    (Template.findsSourceAll_iff.1 hfinds t ht)).2.symm

theorem Usable.define (h : engine.Usable) (hvalid : Template.ValidAll definition.fragment) :
    (engine.define name definition).Usable :=
  ⟨h.settings, h.registry.register name definition hvalid, h.cache⟩

end Engine

namespace Pass

/-- On every sound document work makes nodes that show the trees and takes one engine to another,
unless no slot is left. -/
def Gives (work : Pass (List NodeId)) (before : Engine) (trees : List Tree) (after : Engine) :
    Prop :=
  ∀ d : Document, d.Sound → Runs work ⟨before, d⟩ fun nodes stage =>
    stage.engine = after ∧ d.Gains stage.document nodes trees

variable {engine : Engine} {t : Template} {children : Fragment} {name : String}

theorem gives_expand (h : engine.Usable) (ht : t.Valid) (model : Value) (scope : Scope) :
    (Pass.expand t model scope).Gives engine
      (t.meaning engine.settings engine.depth model scope engine.registry).1
      { engine with
        registry := (t.meaning engine.settings engine.depth model scope engine.registry).2 } := by
  intro d hd
  refine (Pass.refines_expand engine.settings engine.depth t ht model scope ⟨engine, d⟩
    ⟨hd, h.ready⟩ rfl rfl).mono fun nodes stage hexpands => ⟨hexpands.engine, ?_⟩
  obtain ⟨shapes, rfl, htrees, hmade⟩ := hexpands.made
  have hmarked := isMarked_of_made (s := engine.settings) hd hmade fun u hu => by
    rw [htrees] at hu
    exact Template.meaning_marked engine.depth t scope engine.registry u hu
  rw [← htrees]
  exact hmade.gains hmarked

/-- A call for a name is the expansion of a use of it. -/
theorem use_eq_expand (name : String) (source : Option String) (model : Value) (scope : Scope) :
    Pass.use name source model scope =
      Pass.expand (.recursive none (some name) source []) model scope := by
  simp only [Pass.use, Pass.expand, Expansion.expand]

theorem gives_definition (h : engine.Usable) (hvalid : Template.ValidAll children)
    (hplain : Template.NonrecursiveAll children) (name : String) (target source : Option String)
    (model : Value) (scope : Scope) :
    (Pass.expand (.recursive (some name) target source children) model scope).Gives engine
      ((engine.define name ⟨source, children⟩).fragmentTrees name source children model scope)
      (engine.define name ⟨source, children⟩) := by
  have hgives := gives_expand (t := .recursive (some name) target source children) h hvalid model
    scope
  rw [Template.meaning, Template.denote] at hgives
  dsimp only at hgives
  rwa [Template.denoteAll_of_nonrecursive hplain, Template.denoteAll_keeps hplain] at hgives

theorem gives_use (h : engine.Usable) (hdepth : engine.depth < engine.settings.maxDepth)
    (hplain : Template.NonrecursiveAll children) {own : Option String}
    (hdefined : Entries.get? name engine.registry = some ⟨own, children⟩)
    (source : Option String) (model : Value) (scope : Scope) :
    (Pass.use name source model scope).Gives engine
      (engine.fragmentTrees name (source <|> own) children model scope) engine := by
  have hgives := gives_expand (t := .recursive none (some name) source []) h trivial model scope
  rw [← use_eq_expand, Template.meaning, Template.denote] at hgives
  simp only [Registry.instance?, hdefined, Option.map_some] at hgives
  obtain ⟨room, hroom⟩ := Nat.exists_eq_succ_of_ne_zero (Nat.sub_ne_zero_of_lt hdepth)
  simp only [hroom, Template.usesWithin] at hgives
  rwa [Template.denoteAll_of_nonrecursive hplain, Template.denoteAll_keeps hplain] at hgives

/-- A use gives the trees of its definition. A use with another source gives those of the definition
with that source, if every repetition over the source that is met finds it bound: elsewhere the use
falls back on the source of the definition that there is. Uses change nothing in the engine. -/
theorem use_as_definition (hengine : engine.Usable)
    (hdepth : engine.depth < engine.settings.maxDepth) (hvalid : Template.ValidAll children)
    (hplain : Template.NonrecursiveAll children) (name : String) (target source : Option String)
    (model : Value) (scope : Scope) :
    let defined := engine.define name ⟨source, children⟩
    Entries.get? name defined.registry = some ⟨source, children⟩ ∧
    (∃ trees,
      (Pass.expand (.recursive (some name) target source children) model scope).Gives engine trees
        defined ∧
      (Pass.use name none model scope).Gives defined trees defined) ∧
    ∀ other, (source = some other ∨ Template.FindsSourceAll engine.settings model engine.registry
        name children (Expansion.sourceFrame scope name (some other))) →
      ∃ trees,
        (Pass.expand (.recursive (some name) target (some other) children) model scope).Gives engine
          trees (engine.define name ⟨some other, children⟩) ∧
        (Pass.use name (some other) model scope).Gives defined trees defined := by
  intro defined
  have hdefined : Entries.get? name defined.registry = some ⟨source, children⟩ := Engine.get?_define
  have husable : defined.Usable := hengine.define hvalid
  refine ⟨hdefined, ?_, fun other hfinds => ?_⟩
  · exact ⟨_, gives_definition hengine hvalid hplain name target source model scope,
      gives_use husable hdepth hplain hdefined none model scope⟩
  · refine ⟨_, gives_definition hengine hvalid hplain name target (some other) model scope, ?_⟩
    have huse := gives_use husable hdepth hplain hdefined (some other) model scope
    obtain rfl | hfinds := hfinds
    · exact huse
    · rw [Engine.fragmentTrees_define hplain hfinds,
        ← Engine.fragmentTrees_define hplain hfinds ⟨source, children⟩]
      exact huse

/-- A run on one document tells which trees work gives. -/
theorem Gives.markup_eq {work : Pass (List NodeId)} {before after : Engine} {trees : List Tree}
    {d : Document} {shown : String} (h : work.Gives before trees after) (hd : d.Sound)
    (hrun : Succeeds work ⟨before, d⟩ fun nodes stage =>
      String.ofList (Tree.markupAll (nodes.filterMap stage.document.elementTree?)) == shown) :
    String.ofList (Tree.markupAll trees) = shown := by
  obtain ⟨nodes, stage, hok, hshown⟩ := exists_of_succeeds hrun
  obtain ⟨nodes', stage', hok', -, hgains⟩ | ⟨stage', herror, -⟩ := (h d hd).cases
  · obtain ⟨rfl, rfl⟩ := EStateM.Result.ok.inj (hok.symm.trans hok')
    have htrees : nodes.filterMap stage.document.elementTree? = trees := by
      have hmap := congrArg (List.filterMap id) hgains.shown
      rwa [List.filterMap_map, Function.id_comp, List.filterMap_map, Function.id_comp,
        List.filterMap_some] at hmap
    rwa [htrees, beq_iff_eq] at hshown
  · cases hok.symm.trans herror

/-- A list defined with one source and used with another. -/
theorem use_as_definition_other_list :
    let children : Fragment :=
      [.repetition (.recursive "n") none [.element "b" [] "\x7b\x7bitem\x7d\x7d" []]]
    let model : Value := .map [("a", .list [.string "A"]), ("q", .list [.string "Q"])]
    let engine := Engine.ofSettings .default
    let defined := engine.define "n" ⟨some "a", children⟩
    engine.Usable ∧ engine.depth < engine.settings.maxDepth ∧ Template.ValidAll children ∧
      Template.NonrecursiveAll children ∧
      Template.SparesAll .default (sourceBinding "n") children ∧
      ∃ trees,
        (Pass.expand (.recursive (some "n") none (some "q") children) model .empty).Gives engine
          trees (engine.define "n" ⟨some "q", children⟩) ∧
        (Pass.use "n" (some "q") model .empty).Gives defined trees defined ∧
        String.ofList (Tree.markupAll trees) = "<b data-generated=\"true\">Q</b>" := by
  intro children model engine defined
  have husable : engine.Usable := (Engine.Reachable.create (s := .default) rfl).usable
  have hdepth : engine.depth < engine.settings.maxDepth := by decide
  have hvalid : Template.ValidAll children :=
    ⟨⟨⟨⟨by decide, by decide, nofun⟩, trivial⟩, trivial⟩, trivial⟩
  have hplain : Template.NonrecursiveAll children := ⟨⟨trivial, trivial⟩, trivial⟩
  have hspares : Template.SparesAll .default (sourceBinding "n") children :=
    ⟨⟨by decide, trivial, trivial⟩, trivial⟩
  refine ⟨husable, hdepth, hvalid, hplain, hspares, ?_⟩
  have hfinds : Template.FindsSourceAll engine.settings model engine.registry "n" children
      (Expansion.sourceFrame .empty "n" (some "q")) :=
    Template.findsSourceAll_iff.2 fun t ht =>
      Template.findsSource_of_spares (Template.sparesAll_iff.1 hspares t ht)
        ⟨"q", by rw [Expansion.sourceFrame, Scope.find?_bind, if_pos rfl]⟩
  obtain ⟨trees, hdefinition, huse⟩ := (use_as_definition husable hdepth hvalid hplain "n" none
    (some "a") model .empty).2.2 "q" (Or.inr hfinds)
  exact ⟨trees, hdefinition, huse,
    huse.markup_eq (Document.Sound.empty ⟨0⟩) (by decide +kernel)⟩

/-- A repetition that binds its items, which are no texts, to the name of the source: below it the
use falls back on the source of the definition that there is, not on its own. -/
theorem not_use_as_definition_hidden_source : ¬ ∀ (engine : Engine) (children : Fragment),
    engine.Usable → engine.depth < engine.settings.maxDepth → Template.ValidAll children →
    Template.NonrecursiveAll children →
    ∀ (name : String) (source : Option String) (model : Value) (scope : Scope) (other : String),
      ∃ trees,
        (Pass.expand (.recursive (some name) none (some other) children) model scope).Gives engine
          trees (engine.define name ⟨some other, children⟩) ∧
        (Pass.use name (some other) model scope).Gives (engine.define name ⟨source, children⟩) trees
          (engine.define name ⟨source, children⟩) := fun h => by
  obtain ⟨trees, hdefinition, huse⟩ := h (.ofSettings .default)
    [.repetition (.path "xs") (some "n.of")
      [.repetition (.recursive "n") none [.element "b" [] "\x7b\x7bitem\x7d\x7d" []]]]
    (Engine.Reachable.create (s := .default) rfl).usable (by decide)
    ⟨⟨⟨⟨⟨by decide, by decide, nofun⟩, trivial⟩, trivial⟩, trivial⟩, trivial⟩
    ⟨⟨⟨trivial, trivial⟩, trivial⟩, trivial⟩ "n" (some "a")
    (.map [("xs", .list [.bool true]), ("a", .list [.string "A"]), ("q", .list [.string "Q"])])
    .empty "q"
  have hdefined : String.ofList (Tree.markupAll trees) = "<b data-generated=\"true\">Q</b>" :=
    hdefinition.markup_eq (Document.Sound.empty ⟨0⟩) (by decide +kernel)
  have hused : String.ofList (Tree.markupAll trees) = "<b data-generated=\"true\">A</b>" :=
    huse.markup_eq (Document.Sound.empty ⟨0⟩) (by decide +kernel)
  exact absurd (hdefined.symm.trans hused) (by decide)

end Pass
end LiveMarkup
