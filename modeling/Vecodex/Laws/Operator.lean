import Mathlib.Data.List.Basic
import Mathlib.Data.String.Basic
import Vecodex.App.Operator

/-!
# Reconciliation

A `Reconcile` writes objects under four names only, and no two sets share one, since no role name is
a suffix of another (`deploymentKey_inj`). After a success the objects have the declared specs and
metadata that the next `Reconcile` leaves alone (`Converged`). So a further one changes nothing,
whatever happens to other sets in between.

The specs are determined by the declaration. The rest of the objects is not: an object that was
there before keeps its metadata. Of the declaration, the commands get lost.
-/

namespace Vecodex

open Lib

variable {R Meta : Type}

/-! ## Roles and names -/

inductive Role
  | coordinator
  | writer
  | searcher
  deriving DecidableEq

def Role.name : Role → String
  | .coordinator => "coordinator"
  | .writer => "writer"
  | .searcher => "searcher"

def VecodexSetSpec.node (spec : VecodexSetSpec R) : Role → NodeSpec R
  | .coordinator => spec.coordinator
  | .writer => spec.writer
  | .searcher => spec.searcher

/-- The names of Deployments tell sets and roles apart. -/
theorem deploymentKey_inj {key key' : NamespacedName} {role role' : Role}
    (h : deploymentKey key role.name = deploymentKey key' role'.name) :
    key = key' ∧ role = role' := by
  obtain ⟨space, name⟩ := key
  obtain ⟨space', name'⟩ := key'
  obtain ⟨rfl, hname⟩ := NamespacedName.mk.inj h
  have hlist := congrArg (fun s : String => s.toList.reverse) hname
  -- read from the end, the names of the roles differ before the name of the set begins
  cases role <;> cases role' <;> simp [Role.name] at hlist ⊢ <;> exact String.toList_inj.mp hlist

theorem ingressKey_inj {key key' : NamespacedName} (h : ingressKey key = ingressKey key') :
    key = key' := by
  obtain ⟨space, name⟩ := key
  obtain ⟨space', name'⟩ := key'
  obtain ⟨rfl, hname⟩ := NamespacedName.mk.inj h
  have hlist := congrArg String.toList hname
  simp at hlist
  rw [String.toList_inj.mp hlist]

/-! ## Sub-steps -/

section Steps

variable {lib : Ownership Meta} {key : NamespacedName} {vecodex : VecodexSet R}
  {fate : Fate ReconcileError} {c : Cluster R Meta}

/-- What one sub-step for the set of the key leaves alone. -/
structure InLane (key : NamespacedName) (c c' : Cluster R Meta) : Prop where
  sets : c'.sets = c.sets
  deployments : ∀ k, (∀ role : Role, k ≠ deploymentKey key role.name) →
    c'.deployments k = c.deployments k
  ingresses : ∀ k, k ≠ ingressKey key → c'.ingresses k = c.ingresses k

namespace InLane

theorem refl (key : NamespacedName) (c : Cluster R Meta) : InLane key c c :=
  ⟨rfl, fun _ _ => rfl, fun _ _ => rfl⟩

theorem trans {c' c'' : Cluster R Meta} (h : InLane key c c') (h' : InLane key c' c'') :
    InLane key c c'' :=
  ⟨h'.sets.trans h.sets, fun k hk => (h'.deployments k hk).trans (h.deployments k hk),
    fun k hk => (h'.ingresses k hk).trans (h.ingresses k hk)⟩

theorem reconcileDeployment (role : Role) (spec : NodeSpec R) :
    InLane key c (reconcileDeployment lib key vecodex fate role.name spec c).2 :=
  ⟨rfl, fun _ hk => createOrUpdate_other (hk role), fun _ _ => rfl⟩

theorem reconcileIngress : InLane key c (reconcileIngress lib key vecodex fate c).2 :=
  ⟨rfl, fun _ _ => rfl, fun _ hk => createOrUpdate_other hk⟩

/-- A `Reconcile` touches nothing but the objects of its set. -/
theorem reconcile (lib : Ownership Meta) (key : NamespacedName) (fates : Fates)
    (c : Cluster R Meta) : InLane key c (reconcile lib key fates c).2 := by
  unfold Vecodex.reconcile
  split
  · exact refl key c
  · split
    · exact refl key c
    · refine foldStop_keeps (P := InLane key c) (fun u step hstep hu => hu.trans ?_) (refl key c)
      simp only [List.mem_cons, List.not_mem_nil, or_false] at hstep
      rcases hstep with rfl | rfl | rfl | rfl
      · exact reconcileDeployment .coordinator _
      · exact reconcileDeployment .writer _
      · exact reconcileDeployment .searcher _
      · exact reconcileIngress

/-- The objects of another set are among those that are left alone. -/
theorem others {c' : Cluster R Meta} (h : InLane key c c') {other : NamespacedName}
    (hne : other ≠ key) :
    (∀ role : Role, c'.deployments (deploymentKey other role.name) =
      c.deployments (deploymentKey other role.name)) ∧
      c'.ingresses (ingressKey other) = c.ingresses (ingressKey other) :=
  ⟨fun _ => h.deployments _ fun _ heq => hne (deploymentKey_inj heq).1,
    h.ingresses _ fun heq => hne (ingressKey_inj heq)⟩

end InLane

/-! ## What a success has written -/

/-- The metadata of an object once the set controls it, from what it was before. -/
def Ownership.taken (lib : Ownership Meta) (owner : Owner) (metadata : Option Meta) :
    Except ReconcileError Meta :=
  lib.setControllerReference owner (metadata.getD lib.blank)

section Owned

variable {α : Type} {owner : Owner} {objects : NamespacedName → Option α} {k : NamespacedName}
  {blank : α}

/-- The function both sub-steps hand to `CreateOrUpdate`: `build` sets the spec. -/
def Ownership.own (lib : Ownership Meta) (owner : Owner) (metadata : α → Meta) (build : Meta → α)
    (object : α) : Except ReconcileError α := do
  let m ← lib.setControllerReference owner (metadata object)
  return build m

/-- A success has set the spec and taken the object over, a blank one if there was none. -/
theorem own_written (metadata : α → Meta) (build : Meta → α)
    (h : (createOrUpdate fate objects k blank (lib.own owner metadata build)).1 = .ok ())
    (hblank : metadata blank = lib.blank) :
    ∃ m, lib.taken owner ((objects k).map metadata) = .ok m ∧
      (createOrUpdate fate objects k blank (lib.own owner metadata build)).2 k =
        some (build m) := by
  obtain ⟨object, hmutate, hobjects⟩ := createOrUpdate_of_ok h
  obtain ⟨m, hm, hobject⟩ := bind_eq_ok.mp hmutate
  refine ⟨m, ?_, ?_⟩
  · rw [Ownership.taken, ← hblank, Option.getD_map, hm]
  · rw [hobjects, Function.update_self, ← Except.ok.inj hobject]

/-- An object with the spec, and with metadata that stays, is left alone. -/
theorem own_fixed (metadata : α → Meta) (build : Meta → α) {m : Meta}
    (hmetadata : metadata (build m) = m) (hm : lib.setControllerReference owner m = .ok m)
    (hobject : objects k = some (build m)) :
    (createOrUpdate fate objects k blank (lib.own owner metadata build)).2 = objects := by
  refine createOrUpdate_fixed hobject (bind_eq_ok.mpr ⟨m, ?_, rfl⟩)
  rw [hmetadata, hm]

end Owned

/-- The Deployment of a role, by its state before and after: declared spec, metadata kept. -/
def DeploymentWritten (lib : Ownership Meta) (key : NamespacedName) (vecodex : VecodexSet R)
    (role : Role) (before after : Option (Deployment R Meta)) : Prop :=
  ∃ metadata, lib.taken ⟨key, vecodex.uid⟩ (before.map (·.metadata)) = .ok metadata ∧
    after = some ⟨metadata, deploymentSpec key role.name (vecodex.spec.node role)⟩

def IngressWritten (lib : Ownership Meta) (key : NamespacedName) (vecodex : VecodexSet R)
    (before after : Option (Ingress Meta)) : Prop :=
  ∃ metadata, lib.taken ⟨key, vecodex.uid⟩ (before.map (·.metadata)) = .ok metadata ∧
    after = some ⟨metadata, ingressRules key vecodex.spec.ingress⟩

/-- The four objects, by the clusters before and after. -/
structure Written (lib : Ownership Meta) (key : NamespacedName) (vecodex : VecodexSet R)
    (c c' : Cluster R Meta) : Prop where
  deployments : ∀ role, DeploymentWritten lib key vecodex role
    (c.deployments (deploymentKey key role.name)) (c'.deployments (deploymentKey key role.name))
  ingress : IngressWritten lib key vecodex (c.ingresses (ingressKey key))
    (c'.ingresses (ingressKey key))

theorem reconcileDeployment_written (role : Role) {c' : Cluster R Meta}
    (h : reconcileDeployment lib key vecodex fate role.name (vecodex.spec.node role) c =
      (.ok (), c')) :
    DeploymentWritten lib key vecodex role (c.deployments (deploymentKey key role.name))
      (c'.deployments (deploymentKey key role.name)) := by
  obtain ⟨hok, rfl⟩ := Prod.mk.inj h
  exact own_written Deployment.metadata
    (fun m => ⟨m, deploymentSpec key role.name (vecodex.spec.node role)⟩) hok rfl

theorem reconcileIngress_written {c' : Cluster R Meta}
    (h : reconcileIngress lib key vecodex fate c = (.ok (), c')) :
    IngressWritten lib key vecodex (c.ingresses (ingressKey key))
      (c'.ingresses (ingressKey key)) := by
  obtain ⟨hok, rfl⟩ := Prod.mk.inj h
  exact own_written Ingress.metadata (fun m => ⟨m, ingressRules key vecodex.spec.ingress⟩) hok rfl

/-- The sub-step of one role leaves the Deployments of the others alone, and the Ingress. -/
theorem reconcileDeployment_others (role : Role) {spec : NodeSpec R} {c' : Cluster R Meta}
    (h : reconcileDeployment lib key vecodex fate role.name spec c = (.ok (), c')) :
    (∀ role' ≠ role, c'.deployments (deploymentKey key role'.name) =
      c.deployments (deploymentKey key role'.name)) ∧ c'.ingresses = c.ingresses := by
  obtain ⟨-, rfl⟩ := Prod.mk.inj h
  exact ⟨fun role' hne => createOrUpdate_other fun heq => hne (deploymentKey_inj heq).2, rfl⟩

theorem reconcileIngress_others {c' : Cluster R Meta}
    (h : reconcileIngress lib key vecodex fate c = (.ok (), c')) :
    c'.deployments = c.deployments := by
  obtain ⟨-, rfl⟩ := Prod.mk.inj h
  rfl

/-- A success has written all four objects. -/
theorem written_of_ok {fates : Fates} {c' : Cluster R Meta} (hset : c.sets key = some vecodex)
    (h : reconcile lib key fates c = (.ok (), c')) : Written lib key vecodex c c' := by
  unfold reconcile at h
  split at h
  · cases h
  · simp only [hset] at h
    obtain ⟨c₁, h₁, h⟩ := foldStop_cons_eq_ok h
    obtain ⟨c₂, h₂, h⟩ := foldStop_cons_eq_ok h
    obtain ⟨c₃, h₃, h⟩ := foldStop_cons_eq_ok h
    obtain ⟨c₄, h₄, h⟩ := foldStop_cons_eq_ok h
    cases h
    obtain ⟨hother₁, hingress₁⟩ := reconcileDeployment_others .coordinator h₁
    obtain ⟨hother₂, hingress₂⟩ := reconcileDeployment_others .writer h₂
    obtain ⟨hother₃, hingress₃⟩ := reconcileDeployment_others .searcher h₃
    have hother₄ := reconcileIngress_others h₄
    refine ⟨fun role => ?_, ?_⟩
    · cases role with
      | coordinator =>
        rw [hother₄, hother₃ .coordinator (by decide), hother₂ .coordinator (by decide)]
        exact reconcileDeployment_written .coordinator h₁
      | writer =>
        rw [hother₄, hother₃ .writer (by decide), ← hother₁ .writer (by decide)]
        exact reconcileDeployment_written .writer h₂
      | searcher =>
        rw [hother₄, ← hother₁ .searcher (by decide), ← hother₂ .searcher (by decide)]
        exact reconcileDeployment_written .searcher h₃
    · rw [← hingress₁, ← hingress₂, ← hingress₃]
      exact reconcileIngress_written h₄

/-! ## Convergence -/

/-- The four objects have the declared specs, and metadata that stays. -/
structure Converged (lib : Ownership Meta) (key : NamespacedName) (vecodex : VecodexSet R)
    (c : Cluster R Meta) : Prop where
  declared : c.sets key = some vecodex
  deployments : ∀ role, ∃ metadata,
    lib.setControllerReference ⟨key, vecodex.uid⟩ metadata = .ok metadata ∧
    c.deployments (deploymentKey key role.name) =
      some ⟨metadata, deploymentSpec key role.name (vecodex.spec.node role)⟩
  ingress : ∃ metadata, lib.setControllerReference ⟨key, vecodex.uid⟩ metadata = .ok metadata ∧
    c.ingresses (ingressKey key) = some ⟨metadata, ingressRules key vecodex.spec.ingress⟩

theorem Written.converged {c' : Cluster R Meta} (h : Written lib key vecodex c c')
    (hset : c'.sets key = some vecodex) : Converged lib key vecodex c' := by
  refine ⟨hset, fun role => ?_, ?_⟩
  · obtain ⟨metadata, hmetadata, hobject⟩ := h.deployments role
    exact ⟨metadata, lib.again _ _ _ hmetadata, hobject⟩
  · obtain ⟨metadata, hmetadata, hobject⟩ := h.ingress
    exact ⟨metadata, lib.again _ _ _ hmetadata, hobject⟩

namespace Converged

theorem reconcileDeployment (h : Converged lib key vecodex c) (role : Role)
    (fate : Fate ReconcileError) :
    (reconcileDeployment lib key vecodex fate role.name (vecodex.spec.node role) c).2 = c := by
  obtain ⟨metadata, hmetadata, hobject⟩ := h.deployments role
  exact congrArg (fun deployments => { c with deployments := deployments })
    (own_fixed Deployment.metadata
      (fun m => ⟨m, deploymentSpec key role.name (vecodex.spec.node role)⟩) rfl hmetadata hobject)

theorem reconcileIngress (h : Converged lib key vecodex c) (fate : Fate ReconcileError) :
    (reconcileIngress lib key vecodex fate c).2 = c := by
  obtain ⟨metadata, hmetadata, hobject⟩ := h.ingress
  exact congrArg (fun ingresses => { c with ingresses := ingresses })
    (own_fixed Ingress.metadata (fun m => ⟨m, ingressRules key vecodex.spec.ingress⟩) rfl hmetadata
      hobject)

/-- A further `Reconcile` changes nothing, however far it gets. -/
theorem reconcile (h : Converged lib key vecodex c) (fates : Fates) :
    (reconcile lib key fates c).2 = c := by
  unfold Vecodex.reconcile
  split
  · rfl
  · simp only [h.declared]
    refine foldStop_keeps (P := fun u => u = c) (fun u step hstep hu => ?_) rfl
    subst hu
    simp only [List.mem_cons, List.not_mem_nil, or_false] at hstep
    rcases hstep with rfl | rfl | rfl | rfl
    · exact h.reconcileDeployment .coordinator _
    · exact h.reconcileDeployment .writer _
    · exact h.reconcileDeployment .searcher _
    · exact h.reconcileIngress _

/-- A `Reconcile` of another set leaves the objects of this one alone. -/
theorem inLane {other : NamespacedName} {c' : Cluster R Meta} (h : Converged lib key vecodex c)
    (hlane : InLane other c c') (hne : key ≠ other) : Converged lib key vecodex c' := by
  obtain ⟨hdeployments, hingress⟩ := hlane.others hne
  refine ⟨by rw [hlane.sets, h.declared], fun role => ?_, ?_⟩
  · rw [hdeployments role]
    exact h.deployments role
  · rw [hingress]
    exact h.ingress

/-- An event keeps the set converged unless it edits the set. -/
theorem exec {event : OperatorEvent R} (h : Converged lib key vecodex c)
    (hevent : ∀ spec, event ≠ .edit key spec) : Converged lib key vecodex (c.exec lib event) := by
  cases event with
  | reconcile other fates =>
    by_cases hother : key = other
    · subst hother
      show Converged lib key vecodex (Vecodex.reconcile lib key fates c).2
      rw [h.reconcile fates]
      exact h
    · exact h.inLane (InLane.reconcile lib other fates c) hother
  | edit other spec =>
    have hne : key ≠ other := fun heq => hevent spec (by rw [heq])
    exact ⟨(Function.update_of_ne hne _ _).trans h.declared, h.deployments, h.ingress⟩

theorem run {events : List (OperatorEvent R)} (h : Converged lib key vecodex c)
    (hevents : ∀ spec, .edit key spec ∉ events) :
    Converged lib key vecodex (c.run lib events) := by
  induction events generalizing c with
  | nil => exact h
  | cons event events ih =>
    have hevent : ∀ spec, event ≠ .edit key spec := by
      intro spec heq
      exact hevents spec (heq ▸ List.mem_cons_self)
    exact ih (h.exec hevent) fun spec hmem => hevents spec (List.mem_cons_of_mem _ hmem)

end Converged

end Steps

/-! ## Declared and written -/

/-- The declaration as the cluster should show it. -/
structure Realised (key : NamespacedName) (spec : VecodexSetSpec R) (c : Cluster R Meta) :
    Prop where
  deployments : ∀ role, ∃ deployment container,
    c.deployments (deploymentKey key role.name) = some deployment ∧
    deployment.spec.replicas = (spec.node role).replicas ∧
    deployment.spec.matchLabels = deployment.spec.template.labels ∧
    deployment.spec.template.containers = [container] ∧
    container.image = (spec.node role).image ∧
    container.command = (spec.node role).command ∧
    container.resources = (spec.node role).resources
  ingress : ∃ ingress, c.ingresses (ingressKey key) = some ingress ∧
    ingress.rules.map (·.host) = [spec.ingress.host]

/-- What a Deployment shows of a role. -/
def NodeSpec.withoutCommand (spec : NodeSpec R) : NodeSpec R := { spec with command := [] }

theorem deploymentSpec_eq_iff {key : NamespacedName} {name : String} {a b : NodeSpec R} :
    deploymentSpec key name a = deploymentSpec key name b ↔
      a.withoutCommand = b.withoutCommand := by
  simp [deploymentSpec, NodeSpec.withoutCommand, and_left_comm]

/-! ## A cluster -/

/-- Annotations and the controller, as the metadata of an object. -/
structure ObjectMeta where
  annotations : List (String × String)
  controller : Option Owner
  deriving DecidableEq

/-- A controller of the same name is replaced, any other is an error. -/
def setController (owner : Owner) (m : ObjectMeta) : Except ReconcileError ObjectMeta :=
  match m.controller with
  | none => .ok { m with controller := some owner }
  | some owner' =>
    if owner'.key = owner.key then .ok { m with controller := some owner }
    else .error .alreadyOwned

def objectOwnership : Ownership ObjectMeta where
  blank := ⟨[], none⟩
  setControllerReference := setController
  again := by
    intro owner m m' h
    have hm' : m' = { m with controller := some owner } := by
      unfold setController at h
      split at h
      · exact (Except.ok.inj h).symm
      · split at h
        · exact (Except.ok.inj h).symm
        · cases h
    subst hm'
    simp [setController]

def docsKey : NamespacedName := ⟨"default", "docs"⟩

/-- One replica of an image per role, started with the command. -/
def docsSet (command : List String) : VecodexSet Unit :=
  ⟨"7f3a", ⟨⟨"vecodex:1", some 1, command, ()⟩, ⟨"vecodex:1", some 1, command, ()⟩,
    ⟨"vecodex:1", some 1, command, ()⟩, ⟨"example.com"⟩⟩⟩

/-- The set is declared and the coordinator's Deployment is as given; there is nothing else. -/
def docsCluster (command : List String) (coordinator : Option (Deployment Unit ObjectMeta)) :
    Cluster Unit ObjectMeta :=
  { sets := fun k => if k = docsKey then some (docsSet command) else none
    deployments := fun k => if k = deploymentKey docsKey "coordinator" then coordinator else none
    ingresses := fun _ => none }

def allFine : Fates := ⟨none, .fine, .fine, .fine, .fine⟩

def docsReconciled (command : List String) (coordinator : Option (Deployment Unit ObjectMeta)) :
    Except ReconcileError Unit × Cluster Unit ObjectMeta :=
  reconcile objectOwnership docsKey allFine (docsCluster command coordinator)

/-- A Deployment with an annotation, as someone else may have left it. -/
def annotated : Deployment Unit ObjectMeta :=
  ⟨⟨[("team", "search")], none⟩, ⟨none, [], ⟨[], []⟩⟩⟩

def writerLost : Fates := { allFine with writer := .lost .api }

/-- The writer's Deployment could not be created, so the rest was not tried. -/
def docsInterrupted : Cluster Unit ObjectMeta :=
  (docsCluster [] none).run objectOwnership [.reconcile docsKey writerLost]

def docsRepaired : Cluster Unit ObjectMeta :=
  (reconcile objectOwnership docsKey allFine docsInterrupted).2

def logsEvents : List (OperatorEvent Unit) :=
  [.edit ⟨"default", "logs"⟩ (docsSet []).spec, .reconcile ⟨"default", "logs"⟩ allFine]

section Declared

variable {lib : Ownership Meta} {key : NamespacedName} {vecodex : VecodexSet R}
  {c c' : Cluster R Meta}

theorem Written.deployment_spec (h : Written lib key vecodex c c') (role : Role) :
    (c'.deployments (deploymentKey key role.name)).map (·.spec) =
      some (deploymentSpec key role.name (vecodex.spec.node role)) := by
  obtain ⟨metadata, -, hobject⟩ := h.deployments role
  rw [hobject, Option.map_some]

/-- What is written is what is declared, but for the commands. -/
theorem Written.realised_iff (h : Written lib key vecodex c c') :
    Realised key vecodex.spec c' ↔ ∀ role, (vecodex.spec.node role).command = [] := by
  constructor
  · intro hrealised role
    obtain ⟨deployment, container, hobject, -, -, hcontainers, -, hcommand, -⟩ :=
      hrealised.deployments role
    have hspec := h.deployment_spec role
    rw [hobject, Option.map_some] at hspec
    rw [Option.some.inj hspec] at hcontainers
    rw [← hcommand, ← List.head_eq_of_cons_eq hcontainers]
  · intro hcommand
    refine ⟨fun role => ?_, ?_⟩
    · obtain ⟨metadata, -, hobject⟩ := h.deployments role
      exact ⟨_, _, hobject, rfl, rfl, rfl, rfl, (hcommand role).symm, rfl⟩
    · obtain ⟨metadata, -, hobject⟩ := h.ingress
      exact ⟨_, hobject, rfl⟩

/-- After a success the declaration is realised exactly when no role declares a command, and the
Deployment of a role tells two declarations apart exactly by what is not a command. -/
theorem realised_iff_no_command (lib : Ownership Meta) (key : NamespacedName) (fates : Fates)
    (c c' : Cluster R Meta) (vecodex : VecodexSet R) (hset : c.sets key = some vecodex)
    (hok : reconcile lib key fates c = (.ok (), c')) :
    (Realised key vecodex.spec c' ↔ ∀ role, (vecodex.spec.node role).command = []) ∧
    ∀ (fates₂ : Fates) (d d' : Cluster R Meta) (vecodex₂ : VecodexSet R),
      d.sets key = some vecodex₂ → reconcile lib key fates₂ d = (.ok (), d') →
      ∀ role : Role, ((c'.deployments (deploymentKey key role.name)).map (·.spec) =
          (d'.deployments (deploymentKey key role.name)).map (·.spec) ↔
        (vecodex.spec.node role).withoutCommand = (vecodex₂.spec.node role).withoutCommand) := by
  have hwritten := written_of_ok hset hok
  refine ⟨hwritten.realised_iff, ?_⟩
  intro fates₂ d d' vecodex₂ hset₂ hok₂ role
  rw [hwritten.deployment_spec role, (written_of_ok hset₂ hok₂).deployment_spec role,
    Option.some.injEq, deploymentSpec_eq_iff]

/-- A declared command is nowhere in the cluster, and another one makes no difference. -/
theorem command_lost :
    (docsReconciled ["searcher"] none).1 = .ok () ∧
    ¬ Realised docsKey (docsSet ["searcher"]).spec (docsReconciled ["searcher"] none).2 ∧
    (docsSet ["searcher"]).spec ≠ (docsSet ["writer"]).spec ∧
    (docsReconciled ["searcher"] none).2.deployments =
      (docsReconciled ["writer"] none).2.deployments := by
  refine ⟨rfl, ?_, by decide, rfl⟩
  intro hrealised
  have hok : reconcile objectOwnership docsKey allFine (docsCluster ["searcher"] none) =
      (.ok (), (docsReconciled ["searcher"] none).2) := rfl
  have hset : (docsCluster ["searcher"] none).sets docsKey = some (docsSet ["searcher"]) := rfl
  have hwritten := written_of_ok hset hok
  exact absurd (hwritten.realised_iff.mp hrealised .searcher) (by decide)

theorem realised_iff_no_command_docs :
    (docsReconciled [] none).1 = .ok () ∧
    Realised docsKey (docsSet []).spec (docsReconciled [] none).2 := by
  have hiff := realised_iff_no_command objectOwnership docsKey allFine (docsCluster [] none)
    (docsReconciled [] none).2 (docsSet []) rfl rfl
  refine ⟨rfl, hiff.1.mpr fun role => ?_⟩
  cases role <;> rfl

/-- A `Reconcile` stays with the objects of its set, whose names no other set has. In every run, a
success writes declared specs and leaves the rest of the objects as they were, with the set as their
controller. From there on a further one changes nothing, unless the set is edited. -/
theorem reconcile_converges (R : Type) {Meta : Type} (lib : Ownership Meta)
    (key : NamespacedName) :
    (∀ (fates : Fates) (c : Cluster R Meta), InLane key c (reconcile lib key fates c).2) ∧
    (∀ (other : NamespacedName) (role role' : Role),
      deploymentKey other role.name = deploymentKey key role'.name →
        other = key ∧ role = role') ∧
    (∀ other : NamespacedName, ingressKey other = ingressKey key → other = key) ∧
    ∀ (c c' : Cluster R Meta) (history : List (OperatorEvent R)) (fates : Fates)
      (vecodex : VecodexSet R), (c.run lib history).sets key = some vecodex →
      reconcile lib key fates (c.run lib history) = (.ok (), c') →
      Written lib key vecodex (c.run lib history) c' ∧
      ∀ later : List (OperatorEvent R), (∀ spec, .edit key spec ∉ later) →
        ∀ fates' : Fates,
          (reconcile lib key fates' (c'.run lib later)).2 = c'.run lib later := by
  refine ⟨fun fates c => InLane.reconcile lib key fates c,
    fun other role role' => deploymentKey_inj, fun other => ingressKey_inj, ?_⟩
  intro c c' history fates vecodex hset hok
  have hwritten := written_of_ok hset hok
  have hsets : c'.sets = (c.run lib history).sets := by
    have hlane := InLane.reconcile lib key fates (c.run lib history)
    rw [hok] at hlane
    exact hlane.sets
  have hconverged : Converged lib key vecodex c' := hwritten.converged (by rw [hsets, hset])
  exact ⟨hwritten, fun later hlater fates' => (hconverged.run hlater).reconcile fates'⟩

/-- An annotated Deployment that was there before keeps its annotation: the same declaration leads
to two different objects. -/
theorem annotation_kept :
    (docsCluster [] none).sets = (docsCluster [] (some annotated)).sets ∧
    (docsReconciled [] none).1 = .ok () ∧
    (docsReconciled [] (some annotated)).1 = .ok () ∧
    (docsReconciled [] none).2.deployments (deploymentKey docsKey "coordinator") ≠
      (docsReconciled [] (some annotated)).2.deployments (deploymentKey docsKey "coordinator") := by
  refine ⟨rfl, rfl, rfl, fun h => ?_⟩
  have hannotations := congrArg (Option.map (·.metadata.annotations)) h
  exact absurd hannotations (by decide +kernel)

/-- A call that fails half-way, a success, and then edits and calls for another set. -/
theorem reconcile_converges_docs :
    (docsInterrupted.deployments (deploymentKey docsKey "coordinator")).isSome ∧
    docsInterrupted.deployments (deploymentKey docsKey "writer") = none ∧
    ∀ fates' : Fates,
      (reconcile objectOwnership docsKey fates' (docsRepaired.run objectOwnership logsEvents)).2 =
        docsRepaired.run objectOwnership logsEvents := by
  have hconverges := (reconcile_converges Unit objectOwnership docsKey).2.2.2 (docsCluster [] none)
    docsRepaired [.reconcile docsKey writerLost] allFine (docsSet []) rfl rfl
  refine ⟨rfl, rfl, hconverges.2 logsEvents fun spec hmem => ?_⟩
  simp [logsEvents, docsKey] at hmem

end Declared

end Vecodex
