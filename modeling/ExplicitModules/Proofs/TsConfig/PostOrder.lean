import ExplicitModules.Proofs.Project.Reloading
import Mathlib.Data.List.Forall2
import Mathlib.Data.List.Induction
import Mathlib.Logic.Relation

/-!
# What extending means

The configs that a config builds on, in turn with what they build on, form a tree. Loading succeeds
if nothing in it is amiss and no config is met below itself; what is in force then is, setting by
setting, what the last config in the post-order of the tree says.
-/
namespace ExplicitModules.TsConfig
set_option autoImplicit false
open Relation (TransGen ReflTransGen)

def configAt (t : FileTree) (loc : Location) : Except Fault TsConfig :=
  ((t.textAt loc).mapError fun e => .configUnreadable (FileTree.pathOf loc) (.file e)).bind
    (parse (FileTree.pathOf loc))

def baseAt (t : FileTree) (loc : Location) (spec : String) : Except Fault Location :=
  (locateBase t (homeOf loc) spec).bind fun base =>
    (t.resolved base).mapError fun e => .configUnreadable base (.file e)

def BuildsOn (t : FileTree) (loc base : Location) : Prop :=
  ∃ config, configAt t loc = .ok config ∧ ∃ spec ∈ specsOf config, baseAt t loc spec = .ok base

/-- The config at `loc` can be read, and what it builds on is there. -/
def IsSound (t : FileTree) (loc : Location) : Prop :=
  ∃ config, configAt t loc = .ok config ∧ ∀ spec ∈ specsOf config, ∃ base, baseAt t loc spec = .ok base

/-- The configs at some locations with all that they build on, each after what it builds on. -/
inductive PostOrder (t : FileTree) : List Location → List Location → Prop
  | nil : PostOrder t [] []
  | cons {loc : Location} {rest bases above later : List Location} {config : TsConfig}
      (hConfig : configAt t loc = .ok config)
      (hBases : List.Forall₂ (fun spec base => baseAt t loc spec = .ok base) (specsOf config) bases)
      (hAbove : PostOrder t bases above) (hLater : PostOrder t rest later) :
      PostOrder t (loc :: rest) (above ++ loc :: later)

/-- What the last config of `order` that has a value has, with the directory of that config. -/
def lastSet {α : Type} (t : FileTree) (own : TsConfig → Option α) (order : List Location) :
    Option (Path × α) :=
  order.reverse.findSome? fun loc =>
    ((configAt t loc).toOption.bind own).map fun value => (homeOf loc, value)

/-- Each setting is the one of the last config that has it. -/
structure LastWins (t : FileTree) (order : List Location) (settings : Settings) : Prop where
  files : settings.files = (lastSet t TsConfig.files order).map fun s => ⟨s.1, s.2⟩
  includes : settings.includes = (lastSet t TsConfig.includes order).map fun s => ⟨s.1, s.2⟩
  excludes : settings.excludes = (lastSet t TsConfig.excludes order).map fun s => ⟨s.1, s.2⟩
  allowJs : settings.allowJs =
    (lastSet t (fun config => config.compilerOptions.allowJs) order).map Prod.snd
  outDir : settings.outDir =
    (lastSet t (fun config => config.compilerOptions.outDir) order).map fun s => s.1.joinText s.2

section Order

variable {t : FileTree} {loc found : Location} {rest bases order : List Location}

theorem postOrder_nil_iff : PostOrder t [] order ↔ order = [] := by
  constructor
  · rintro ⟨⟩
    rfl
  · rintro rfl
    exact .nil

theorem postOrder_single_iff : PostOrder t [loc] order ↔
    ∃ config, configAt t loc = .ok config ∧ ∃ bases,
      List.Forall₂ (fun spec base => baseAt t loc spec = .ok base) (specsOf config) bases ∧
        ∃ above, PostOrder t bases above ∧ order = above ++ [loc] := by
  constructor
  · rintro ⟨⟩
    rename_i bases above later config hAbove hConfig hBases hLater
    rw [postOrder_nil_iff.mp hLater]
    exact ⟨config, hConfig, bases, hBases, above, hAbove, rfl⟩
  · rintro ⟨config, hConfig, bases, hBases, above, hAbove, rfl⟩
    exact .cons hConfig hBases hAbove .nil

theorem postOrder_cons_iff : PostOrder t (loc :: rest) order ↔
    ∃ first later, PostOrder t [loc] first ∧ PostOrder t rest later ∧ order = first ++ later := by
  constructor
  · rintro ⟨⟩
    rename_i bases above later config hAbove hConfig hBases hLater
    exact ⟨above ++ [loc], later, .cons hConfig hBases hAbove .nil, hLater, by simp⟩
  · rintro ⟨first, later, hFirst, hLater, rfl⟩
    obtain ⟨config, hConfig, bases, hBases, above, hAbove, rfl⟩ := postOrder_single_iff.mp hFirst
    rw [List.append_assoc]
    exact .cons hConfig hBases hAbove hLater

theorem mem_of_forall₂ {α β : Type} {r : α → β → Prop} {as : List α} {bs : List β}
    (h : List.Forall₂ r as bs) : (∀ a ∈ as, ∃ b ∈ bs, r a b) ∧ ∀ b ∈ bs, ∃ a ∈ as, r a b := by
  induction h with
  | nil => exact ⟨nofun, nofun⟩
  | cons hHead _ ih =>
    simp only [List.forall_mem_cons, List.exists_mem_cons_iff]
    exact ⟨⟨Or.inl hHead, fun a ha => Or.inr (ih.1 a ha)⟩, Or.inl hHead, fun b hb => Or.inr (ih.2 b hb)⟩

theorem rightUnique_baseAt (t : FileTree) (loc : Location) :
    Relator.RightUnique fun spec base => baseAt t loc spec = .ok base :=
  fun _ _ _ h h' => Except.ok.inj (h.symm.trans h')

theorem mem_bases_iff {config : TsConfig} (hConfig : configAt t loc = .ok config)
    (hBases : List.Forall₂ (fun spec base => baseAt t loc spec = .ok base) (specsOf config) bases) :
    found ∈ bases ↔ BuildsOn t loc found := by
  obtain ⟨hSpecs, hFound⟩ := mem_of_forall₂ hBases
  constructor
  · intro hMem
    exact ⟨config, hConfig, hFound found hMem⟩
  · rintro ⟨other, hOther, spec, hSpec, hBase⟩
    rw [hConfig] at hOther
    cases hOther
    obtain ⟨base, hMem, hSame⟩ := hSpecs spec hSpec
    rw [hBase] at hSame
    cases hSame
    exact hMem

namespace PostOrder

theorem mem_of_mem (h : PostOrder t rest order) : ∀ loc ∈ rest, loc ∈ order := by
  induction h with
  | nil => exact nofun
  | cons _ _ _ _ _ ihLater =>
    rw [List.forall_mem_cons]
    exact ⟨List.mem_append_right _ List.mem_cons_self,
      fun loc hLoc => List.mem_append_right _ (List.mem_cons_of_mem _ (ihLater loc hLoc))⟩

theorem isSound (h : PostOrder t rest order) : ∀ found ∈ order, IsSound t found := by
  induction h with
  | nil => exact nofun
  | @cons loc _ _ _ _ config hConfig hBases _ _ ihAbove ihLater =>
    intro found hFound
    rcases List.mem_append.mp hFound with hAbove | hFound
    · exact ihAbove found hAbove
    · rcases List.mem_cons.mp hFound with rfl | hLater
      · refine ⟨config, hConfig, fun spec hSpec => ?_⟩
        obtain ⟨base, -, hBase⟩ := (mem_of_forall₂ hBases).1 spec hSpec
        exact ⟨base, hBase⟩
      · exact ihLater found hLater

theorem mem_of_buildsOn (h : PostOrder t rest order) :
    ∀ found ∈ order, ∀ base, BuildsOn t found base → base ∈ order := by
  induction h with
  | nil => exact nofun
  | cons hConfig hBases hAbove _ ihAbove ihLater =>
    intro found hFound base hBase
    rcases List.mem_append.mp hFound with hFound | hFound
    · exact List.mem_append_left _ (ihAbove found hFound base hBase)
    · rcases List.mem_cons.mp hFound with rfl | hFound
      · exact List.mem_append_left _
          (hAbove.mem_of_mem base ((mem_bases_iff hConfig hBases).mpr hBase))
      · exact List.mem_append_right _ (List.mem_cons_of_mem _ (ihLater found hFound base hBase))

theorem reaches (h : PostOrder t rest order) :
    ∀ found ∈ order, ∃ loc ∈ rest, ReflTransGen (BuildsOn t) loc found := by
  induction h with
  | nil => exact nofun
  | cons hConfig hBases _ _ ihAbove ihLater =>
    intro found hFound
    rcases List.mem_append.mp hFound with hFound | hFound
    · obtain ⟨base, hBase, hPath⟩ := ihAbove found hFound
      exact ⟨_, List.mem_cons_self, .head ((mem_bases_iff hConfig hBases).mp hBase) hPath⟩
    · rcases List.mem_cons.mp hFound with rfl | hFound
      · exact ⟨found, List.mem_cons_self, .refl⟩
      · obtain ⟨loc, hLoc, hPath⟩ := ihLater found hFound
        exact ⟨loc, List.mem_cons_of_mem _ hLoc, hPath⟩

theorem unique (h : PostOrder t rest order) : ∀ other, PostOrder t rest other → other = order := by
  induction h with
  | nil => exact fun other => postOrder_nil_iff.mp
  | cons hConfig hBases _ _ ihAbove ihLater =>
    intro other hOther
    obtain ⟨first, later, hFirst, hLater, rfl⟩ := postOrder_cons_iff.mp hOther
    obtain ⟨_, hSame, bases, hFound, above, hAbove, rfl⟩ := postOrder_single_iff.mp hFirst
    rw [hConfig] at hSame
    cases hSame
    cases (rightUnique_baseAt t _).forall₂ hBases hFound
    rw [ihAbove above hAbove, ihLater later hLater, List.append_assoc]
    rfl

/-- A config that is met below itself would be met there again, without an end. -/
theorem acyclic (h : PostOrder t rest order) : ∀ found ∈ order, ¬TransGen (BuildsOn t) found found := by
  induction h with
  | nil => exact nofun
  | cons hConfig hBases hAbove _ ihAbove ihLater =>
    intro found hFound hCycle
    rcases List.mem_append.mp hFound with hFound | hFound
    · exact ihAbove found hFound hCycle
    · rcases List.mem_cons.mp hFound with rfl | hFound
      · obtain ⟨base, hBase, hBack⟩ := TransGen.head'_iff.mp hCycle
        have hMem := hAbove.mem_of_mem base ((mem_bases_iff hConfig hBases).mpr hBase)
        exact ihAbove base hMem (TransGen.tail' hBack hBase)
      · exact ihLater found hFound hCycle

theorem not_mem_above {config : TsConfig} {above : List Location}
    (hConfig : configAt t loc = .ok config)
    (hBases : List.Forall₂ (fun spec base => baseAt t loc spec = .ok base) (specsOf config) bases)
    (hAbove : PostOrder t bases above) : loc ∉ above := by
  intro hMem
  obtain ⟨base, hBase, hPath⟩ := hAbove.reaches loc hMem
  have hStep := (mem_bases_iff hConfig hBases).mp hBase
  exact hAbove.acyclic loc hMem (TransGen.head' hStep hPath)

end PostOrder

end Order

section InForce

def declaredAt (t : FileTree) (loc : Location) : Settings :=
  (configAt t loc).toOption.elim {} (.ofConfig (homeOf loc))

def inForce (t : FileTree) (order : List Location) : Settings :=
  order.foldl (fun settings loc => settings.overlay (declaredAt t loc)) {}

theorem Settings.overlay_assoc (a b c : Settings) :
    (a.overlay b).overlay c = a.overlay (b.overlay c) := by
  simp [Settings.overlay, Option.or_assoc]

@[simp] theorem Settings.overlay_empty (a : Settings) : a.overlay {} = a := by
  simp [Settings.overlay]

@[simp] theorem Settings.empty_overlay (a : Settings) : Settings.overlay {} a = a := by
  simp [Settings.overlay]

variable {t : FileTree}

theorem foldl_overlay (order : List Location) (start : Settings) :
    order.foldl (fun settings loc => settings.overlay (declaredAt t loc)) start =
      start.overlay (inForce t order) := by
  unfold inForce
  induction order using List.reverseRecOn with
  | nil => exact (Settings.overlay_empty start).symm
  | append_singleton order loc ih =>
    rw [List.foldl_concat, List.foldl_concat, ih, Settings.overlay_assoc]

theorem inForce_append (first later : List Location) :
    inForce t (first ++ later) = (inForce t first).overlay (inForce t later) := by
  rw [inForce, List.foldl_append, foldl_overlay]
  rfl

theorem inForce_concat (order : List Location) (loc : Location) :
    inForce t (order ++ [loc]) = (inForce t order).overlay (declaredAt t loc) := by
  rw [inForce, List.foldl_concat]
  rfl

theorem lastSet_concat {α : Type} (own : TsConfig → Option α) (order : List Location)
    (loc : Location) : lastSet t own (order ++ [loc]) =
      (((configAt t loc).toOption.bind own).map fun value => (homeOf loc, value)).or
        (lastSet t own order) := by
  unfold lastSet
  rw [List.reverse_concat, List.findSome?_cons]
  cases ((configAt t loc).toOption.bind own).map fun value => (homeOf loc, value) <;> rfl

theorem field_inForce {α β : Type} {field : Settings → Option β} {own : TsConfig → Option α}
    (anchor : Path → α → β) (hEmpty : field {} = none)
    (hOverlay : ∀ a b : Settings, field (a.overlay b) = (field b).or (field a))
    (hOwn : ∀ directory config, field (.ofConfig directory config) =
      (own config).map (anchor directory)) (order : List Location) :
    field (inForce t order) = (lastSet t own order).map fun s => anchor s.1 s.2 := by
  induction order using List.reverseRecOn with
  | nil => exact hEmpty
  | append_singleton order loc ih =>
    rw [inForce_concat, hOverlay, ih, lastSet_concat, Option.map_or, declaredAt]
    congr 1
    cases (configAt t loc).toOption with
    | none => exact hEmpty
    | some config =>
      rw [Option.elim_some, hOwn, Option.bind_some, Option.map_map]
      rfl

theorem lastWins_inForce (order : List Location) : LastWins t order (inForce t order) where
  files := field_inForce Patterns.mk rfl (fun _ _ => rfl) (fun _ _ => rfl) order
  includes := field_inForce Patterns.mk rfl (fun _ _ => rfl) (fun _ _ => rfl) order
  excludes := field_inForce Patterns.mk rfl (fun _ _ => rfl) (fun _ _ => rfl) order
  allowJs := field_inForce (fun _ allowJs => allowJs) rfl (fun _ _ => rfl)
    (fun _ _ => Option.map_id'.symm) order
  outDir := field_inForce Path.joinText rfl (fun _ _ => rfl) (fun _ _ => rfl) order

end InForce

section Resolve

variable {t : FileTree} {chain : List Location} {path : Path} {loc : Location} {fault : Fault}
  {settings : Settings}

def inherit (t : FileTree) (chain : List Location) (loc : Location) (settings : Settings)
    (spec : String) : Except Fault Settings :=
  (locateBase t (homeOf loc) spec).bind fun base =>
    (resolve t (loc :: chain) base).bind fun parent => .ok (settings.overlay parent)

theorem resolve_eq_bind (hTrace : t.resolved path = .ok loc) (hNew : loc ∉ chain) :
    resolve t chain path = (configAt t loc).bind fun config =>
      ((specsOf config).foldlM (inherit t chain loc) {}).bind fun inherited =>
        .ok (inherited.overlay (.ofConfig (homeOf loc) config)) := by
  unfold configAt
  cases hText : t.textAt loc with
  | error e => exact resolve_of_error hTrace hNew hText
  | ok text => exact resolve_of_textAt hTrace hNew hText

theorem baseAt_eq_ok_iff {spec : String} {found : Location} : baseAt t loc spec = .ok found ↔
    ∃ base, locateBase t (homeOf loc) spec = .ok base ∧ t.resolved base = .ok found := by
  rw [baseAt, bind_eq_ok_iff]
  apply exists_congr
  intro base
  apply and_congr_right
  intro _
  cases t.resolved base with
  | error e => exact iff_of_false nofun nofun
  | ok other => simp only [Except.mapError, Except.ok.injEq]

/-- Inheriting follows the post-order of what is above, as far as loading each base does. -/
theorem foldlM_inherit_eq_ok_iff (specs : List String) (start : Settings)
    (ih : ∀ base settings, resolve t (loc :: chain) base = .ok settings ↔
      ∃ found, t.resolved base = .ok found ∧ ∃ order, PostOrder t [found] order ∧
        (∀ l ∈ order, l ∉ loc :: chain) ∧ settings = inForce t order) :
    specs.foldlM (inherit t chain loc) start = .ok settings ↔
      ∃ bases, List.Forall₂ (fun spec base => baseAt t loc spec = .ok base) specs bases ∧
        ∃ above, PostOrder t bases above ∧ (∀ l ∈ above, l ∉ loc :: chain) ∧
          settings = start.overlay (inForce t above) := by
  induction specs generalizing start with
  | nil =>
    simp only [List.foldlM_nil, List.forall₂_nil_left_iff, exists_eq_left, postOrder_nil_iff, pure,
      Except.pure, Except.ok.injEq]
    change _ ↔ _ ∧ settings = start.overlay {}
    rw [Settings.overlay_empty]
    exact ⟨fun h => ⟨nofun, h.symm⟩, fun h => h.2.symm⟩
  | cons spec specs ihSpecs =>
    rw [List.foldlM_cons]
    change (inherit t chain loc start spec).bind _ = _ ↔ _
    simp only [inherit, bind_eq_ok_iff, ih, ihSpecs]
    constructor
    · rintro ⟨_, ⟨base, hBase, _, ⟨found, hTrace, order, hOrder, hNew, rfl⟩, hOk⟩, bases, hBases,
        above, hAbove, hFree, rfl⟩
      cases hOk
      refine ⟨found :: bases, .cons (baseAt_eq_ok_iff.mpr ⟨base, hBase, hTrace⟩) hBases,
        order ++ above, postOrder_cons_iff.mpr ⟨order, above, hOrder, hAbove, rfl⟩, ?_, ?_⟩
      · rw [List.forall_mem_append]
        exact ⟨hNew, hFree⟩
      · rw [inForce_append, Settings.overlay_assoc]
    · rintro ⟨_, hBases, above, hAbove, hFree, rfl⟩
      cases hBases with
      | cons hBase hBases =>
        obtain ⟨base, hLocate, hTrace⟩ := baseAt_eq_ok_iff.mp hBase
        obtain ⟨first, later, hFirst, hLater, rfl⟩ := postOrder_cons_iff.mp hAbove
        rw [List.forall_mem_append] at hFree
        refine ⟨_, ⟨base, hLocate, _, ⟨_, hTrace, first, hFirst, hFree.1, rfl⟩, rfl⟩, _, hBases, later,
          hLater, hFree.2, ?_⟩
        rw [inForce_append, Settings.overlay_assoc]

/-- Settings are found where there is a post-order that stays clear of the configs on the way. -/
theorem resolve_eq_ok_iff : resolve t chain path = .ok settings ↔
    ∃ loc, t.resolved path = .ok loc ∧ ∃ order, PostOrder t [loc] order ∧
      (∀ l ∈ order, l ∉ chain) ∧ settings = inForce t order := by
  induction chain, path using resolve.induct t generalizing settings with
  | case1 chain path e hTrace =>
    rw [resolve, hTrace]
    simp
  | case2 chain path loc hTrace hSeen =>
    rw [resolve, hTrace]
    dsimp only
    rw [dif_pos hSeen]
    -- `loc` is in every order that ends in it, and on the way already
    refine iff_of_false (by simp) ?_
    rintro ⟨other, hOther, order, hOrder, hNew, -⟩
    cases hOther
    exact hNew loc (hOrder.mem_of_mem loc (List.mem_singleton_self loc)) hSeen
  | case3 chain path loc hTrace hNew e hText =>
    rw [resolve_of_error hTrace hNew hText, hTrace]
    refine iff_of_false (by simp) ?_
    rintro ⟨other, hOther, order, hOrder, -⟩
    cases hOther
    obtain ⟨config, hConfig, -⟩ := postOrder_single_iff.mp hOrder
    rw [configAt, hText] at hConfig
    cases hConfig
  | case4 chain path loc hTrace hNew text hText ih =>
    rw [resolve_eq_bind hTrace hNew, hTrace]
    simp only [bind_eq_ok_iff, foldlM_inherit_eq_ok_iff _ _ fun base settings => ih base]
    constructor
    · rintro ⟨config, hConfig, _, ⟨bases, hBases, above, hAbove, hFree, rfl⟩, hOk⟩
      cases hOk
      refine ⟨loc, rfl, above ++ [loc], .cons hConfig hBases hAbove .nil, ?_, ?_⟩
      · rw [List.forall_mem_append, List.forall_mem_singleton]
        exact ⟨fun l hl hChain => hFree l hl (List.mem_cons_of_mem _ hChain), hNew⟩
      · rw [inForce_concat, declaredAt, hConfig, Settings.empty_overlay]
        rfl
    · rintro ⟨other, hOther, order, hOrder, hFree, rfl⟩
      cases hOther
      obtain ⟨config, hConfig, bases, hBases, above, hAbove, rfl⟩ := postOrder_single_iff.mp hOrder
      rw [List.forall_mem_append] at hFree
      refine ⟨config, hConfig, _, ⟨bases, hBases, above, hAbove, ?_, rfl⟩, ?_⟩
      · intro l hl hChain
        -- nothing that a config builds on is the config itself, or there would be no order
        rcases List.mem_cons.mp hChain with rfl | hChain
        · exact PostOrder.not_mem_above hConfig hBases hAbove hl
        · exact hFree.1 l hl hChain
      · rw [inForce_concat, declaredAt, hConfig, Settings.empty_overlay]
        rfl

inductive Refuses (t : FileTree) (loc : Location) : Fault → Prop
  | config {fault : Fault} (h : configAt t loc = .error fault) : Refuses t loc fault
  | base {fault : Fault} {config : TsConfig} {spec : String} (hConfig : configAt t loc = .ok config)
      (hSpec : spec ∈ specsOf config) (h : baseAt t loc spec = .error fault) : Refuses t loc fault
  | cycle (h : TransGen (BuildsOn t) loc loc) : Refuses t loc (.extendsCycle (FileTree.pathOf loc))

theorem exists_of_foldlM_eq_error {α β ε : Type} {f : β → α → Except ε β} {items : List α} {b : β}
    {e : ε} (h : items.foldlM f b = .error e) : ∃ item ∈ items, ∃ b, f b item = .error e := by
  induction items generalizing b with
  | nil => cases h
  | cons item items ih =>
    rw [List.foldlM_cons] at h
    cases hItem : f b item with
    | error e' =>
      rw [hItem] at h
      cases h
      exact ⟨item, List.mem_cons_self, b, hItem⟩
    | ok next =>
      rw [hItem] at h
      obtain ⟨other, hOther, hError⟩ := ih h
      exact ⟨other, List.mem_cons_of_mem _ hOther, hError⟩

theorem inherit_eq_error {start : Settings} {spec : String}
    (h : inherit t chain loc start spec = .error fault) :
    locateBase t (homeOf loc) spec = .error fault ∨
      ∃ base, locateBase t (homeOf loc) spec = .ok base ∧
        resolve t (loc :: chain) base = .error fault := by
  rcases bind_eq_error_iff.mp h with hBase | ⟨base, hBase, hParent⟩
  · exact Or.inl hBase
  · rcases bind_eq_error_iff.mp hParent with hParent | ⟨_, -, hOk⟩
    · exact Or.inr ⟨base, hBase, hParent⟩
    · cases hOk

/-- A new config refuses its own text, or one of its bases is not to be found or refused. -/
theorem resolve_eq_error (hTrace : t.resolved path = .ok loc) (hNew : loc ∉ chain)
    (h : resolve t chain path = .error fault) :
    configAt t loc = .error fault ∨
      ∃ config, configAt t loc = .ok config ∧ ∃ spec ∈ specsOf config,
        locateBase t (homeOf loc) spec = .error fault ∨
          ∃ base, locateBase t (homeOf loc) spec = .ok base ∧
            resolve t (loc :: chain) base = .error fault := by
  rw [resolve_eq_bind hTrace hNew] at h
  rcases bind_eq_error_iff.mp h with hConfig | ⟨config, hConfig, hBases⟩
  · exact Or.inl hConfig
  · rcases bind_eq_error_iff.mp hBases with hFold | ⟨_, -, hOk⟩
    · obtain ⟨spec, hSpec, start, hError⟩ := exists_of_foldlM_eq_error hFold
      exact Or.inr ⟨config, hConfig, spec, hSpec, inherit_eq_error hError⟩
    · cases hOk

/-- A fault has its place: the path that was asked for, or a config that it builds on. -/
theorem refuses_of_resolve_eq_error
    (hChain : ∀ loc, t.resolved path = .ok loc → ∀ below ∈ chain, TransGen (BuildsOn t) below loc)
    (h : resolve t chain path = .error fault) :
    (∃ e, t.resolved path = .error e ∧ fault = .configUnreadable path (.file e)) ∨
      ∃ found, Reads t path found ∧ Refuses t found fault := by
  induction chain, path using resolve.induct t with
  | case1 chain path e hTrace =>
    rw [resolve, hTrace] at h
    cases h
    exact Or.inl ⟨e, hTrace, rfl⟩
  | case2 chain path loc hTrace hSeen =>
    rw [resolve, hTrace] at h
    dsimp only at h
    rw [dif_pos hSeen] at h
    cases h
    exact Or.inr ⟨loc, .self hTrace, .cycle (hChain loc hTrace loc hSeen)⟩
  | case3 chain path loc hTrace hNew e hText =>
    rw [resolve_of_error hTrace hNew hText] at h
    cases h
    refine Or.inr ⟨loc, .self hTrace, .config ?_⟩
    rw [configAt, hText]
    rfl
  | case4 chain path loc hTrace hNew text hText ih =>
    right
    rcases resolve_eq_error hTrace hNew h with
      hConfig | ⟨config, hConfig, spec, hSpec, hBase | ⟨base, hBase, hParent⟩⟩
    · exact ⟨loc, .self hTrace, .config hConfig⟩
    · refine ⟨loc, .self hTrace, .base hConfig hSpec ?_⟩
      rw [baseAt, hBase]
      rfl
    · -- all configs on the way to a base build on it
      have hBelow : ∀ next, t.resolved base = .ok next →
          ∀ below ∈ loc :: chain, TransGen (BuildsOn t) below next := by
        intro next hNext
        have hStep : BuildsOn t loc next :=
          ⟨config, hConfig, spec, hSpec, baseAt_eq_ok_iff.mpr ⟨base, hBase, hNext⟩⟩
        rw [List.forall_mem_cons]
        exact ⟨.single hStep, fun below hMem => (hChain loc hTrace below hMem).tail hStep⟩
      rcases ih base hBelow hParent with ⟨e, hNone, rfl⟩ | ⟨found, hReads, hRefuses⟩
      · refine ⟨loc, .self hTrace, .base hConfig hSpec ?_⟩
        rw [baseAt, hBase, Except.bind, hNone]
        rfl
      · have hParse : parse (FileTree.pathOf loc) text = .ok config := by
          rwa [configAt, hText] at hConfig
        exact ⟨found, .base hTrace hText hParse hSpec hBase hReads, hRefuses⟩

theorem IsSound.not_refuses (hSound : IsSound t loc) (hAcyclic : ¬TransGen (BuildsOn t) loc loc) :
    ¬Refuses t loc fault := by
  obtain ⟨config, hConfig, hBases⟩ := hSound
  intro h
  cases h with
  | config h =>
    rw [hConfig] at h
    cases h
  | base hOther hSpec h =>
    rw [hConfig] at hOther
    cases hOther
    obtain ⟨base, hBase⟩ := hBases _ hSpec
    rw [hBase] at h
    cases h
  | cycle h => exact hAcyclic h

theorem locateBase_ne_extendsCycle {spec : String} {p : Path} :
    locateBase t (homeOf loc) spec ≠ .error (.extendsCycle p) := by
  unfold locateBase
  dsimp only
  split
  · split <;> exact nofun
  · split <;> exact nofun

theorem cycle_of_refuses {p : Path} (h : Refuses t loc (.extendsCycle p)) :
    p = FileTree.pathOf loc ∧ TransGen (BuildsOn t) loc loc := by
  cases h with
  | config h =>
    unfold configAt at h
    cases hText : t.textAt loc with
    | error e =>
      rw [hText] at h
      cases h
    | ok text =>
      rw [hText] at h
      change (TsConfig.ofText text).mapError _ = _ at h
      cases hConfig : TsConfig.ofText text with
      | error e =>
        rw [hConfig] at h
        cases h
      | ok config =>
        rw [hConfig] at h
        cases h
  | @base _ config spec hConfig hSpec h =>
    unfold baseAt at h
    cases hBase : locateBase t (homeOf loc) spec with
    | error e =>
      rw [hBase] at h
      cases h
      exact absurd hBase locateBase_ne_extendsCycle
    | ok base =>
      rw [hBase] at h
      dsimp only [Except.bind] at h
      cases hTrace : t.resolved base with
      | error e =>
        rw [hTrace] at h
        cases h
      | ok found =>
        rw [hTrace] at h
        cases h
  | cycle h => exact ⟨rfl, h⟩

theorem mem_of_reads {order : List Location} (hOrder : ∀ found ∈ order, ∀ base,
    BuildsOn t found base → base ∈ order) {found : Location} (hReads : Reads t path found)
    (hStart : ∀ loc, t.resolved path = .ok loc → loc ∈ order) : found ∈ order := by
  induction hReads with
  | self hPath => exact hStart _ hPath
  | @base path base loc found text spec config hPath hText hConfig hSpec hBase _ ih =>
    apply ih
    intro next hNext
    apply hOrder loc (hStart loc hPath)
    refine ⟨config, ?_, spec, hSpec, baseAt_eq_ok_iff.mpr ⟨base, hBase, hNext⟩⟩
    rw [configAt, hText]
    exact hConfig

end Resolve

/-- Loading succeeds if the path leads to a config, each config that is read is sound and none builds
on itself; a cycle that is reported is one; and the settings are those of the last config, in
post-order, that has them. -/
theorem load_follows_postOrder (t : FileTree) (path : Path) :
    ((∃ settings, load t path = .ok settings) ↔ (∃ loc, t.resolved path = .ok loc) ∧
      ∀ found, Reads t path found → IsSound t found ∧ ¬TransGen (BuildsOn t) found found) ∧
    (∀ p, load t path = .error (.extendsCycle p) →
      ∃ found, p = FileTree.pathOf found ∧ Reads t path found ∧ TransGen (BuildsOn t) found found) ∧
    ∀ settings, load t path = .ok settings →
      ∃ loc, t.resolved path = .ok loc ∧
        ∃ order, (∀ other, PostOrder t [loc] other ↔ other = order) ∧ LastWins t order settings := by
  have hRefused {fault : Fault} (h : resolve t [] path = .error fault) :=
    refuses_of_resolve_eq_error (fun _ _ _ hNil => absurd hNil List.not_mem_nil) h
  refine ⟨⟨?_, ?_⟩, ?_, ?_⟩
  · rintro ⟨settings, h⟩
    obtain ⟨loc, hTrace, order, hOrder, -, -⟩ := resolve_eq_ok_iff.mp h
    refine ⟨⟨loc, hTrace⟩, fun found hReads => ?_⟩
    have hMem : found ∈ order := by
      refine mem_of_reads hOrder.mem_of_buildsOn hReads fun other hOther => ?_
      rw [hTrace] at hOther
      cases hOther
      exact hOrder.mem_of_mem loc (List.mem_singleton_self loc)
    exact ⟨hOrder.isSound found hMem, hOrder.acyclic found hMem⟩
  · rintro ⟨⟨loc, hTrace⟩, hAll⟩
    cases h : load t path with
    | ok settings => exact ⟨settings, rfl⟩
    | error fault =>
      rcases hRefused h with ⟨e, hNone, -⟩ | ⟨found, hReads, hRefuses⟩
      · rw [hTrace] at hNone
        cases hNone
      · obtain ⟨hSound, hAcyclic⟩ := hAll found hReads
        exact absurd hRefuses (hSound.not_refuses hAcyclic)
  · intro p h
    rcases hRefused h with ⟨e, -, hFault⟩ | ⟨found, hReads, hRefuses⟩
    · cases hFault
    · obtain ⟨hPath, hCycle⟩ := cycle_of_refuses hRefuses
      exact ⟨found, hPath, hReads, hCycle⟩
  · intro settings h
    obtain ⟨loc, hTrace, order, hOrder, -, rfl⟩ := resolve_eq_ok_iff.mp h
    refine ⟨loc, hTrace, order, fun other => ⟨hOrder.unique other, ?_⟩, lastWins_inForce order⟩
    rintro rfl
    exact hOrder

def diamond : FileTree := ⟨[
  (["w"], .directory 0o755),
  (["w", "base.json"],
    .file "\x7b include: ['src'], compilerOptions: \x7b outDir: 'out' \x7d \x7d".toUTF8 0o644),
  (["w", "left.json"], .file "\x7b extends: './base', include: null \x7d".toUTF8 0o644),
  (["w", "right.json"], .file "\x7b extends: './base.json', include: [] \x7d".toUTF8 0o644),
  (["w", "tsconfig.json"], .file "\x7b extends: ['./right', './left'] \x7d".toUTF8 0o644)]⟩

example : load diamond ⟨"/w/tsconfig.json"⟩ =
    .ok { includes := some ⟨⟨"/w"⟩, ["src"]⟩, outDir := some ⟨"/w/out"⟩ } := by decide +kernel

end ExplicitModules.TsConfig
