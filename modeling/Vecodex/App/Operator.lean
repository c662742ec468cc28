import Vecodex.Lib.Machine
import Vecodex.Lib.Upsert

/-!
# The operator (`kube-operator`)

A `VecodexSet` declares the three roles of a deployment of the system and its ingress
(`api/v1alpha1/vecodexset_types.go`). `Reconcile` (`internal/controller/vecodexset_controller.go`)
brings three Deployments and an Ingress, named after the set, to what is declared.

The objects are in a cluster that outlives the calls. Each of the four sub-steps is one
`CreateOrUpdate`, whose calls can fail before the object is written and after it. Everything of an
object but its spec is its metadata, of an arbitrary type; `Ownership` stands for
`SetControllerReference`, with the one thing that is expected of it. The quantities of a container
are not looked into and have an arbitrary type as well.
-/

namespace Vecodex

open Lib

variable {R Meta : Type}

/-- A name in a namespace. -/
structure NamespacedName where
  space : String
  name : String
  deriving DecidableEq, Repr

/-! ## Declarations -/

structure NodeSpec (R : Type) where
  image : String
  replicas : Option Int
  command : List String
  resources : R
  deriving DecidableEq

structure IngressSpec where
  host : String
  deriving DecidableEq

structure VecodexSetSpec (R : Type) where
  coordinator : NodeSpec R
  writer : NodeSpec R
  searcher : NodeSpec R
  ingress : IngressSpec
  deriving DecidableEq

/-- A set, under the name it is fetched by. -/
structure VecodexSet (R : Type) where
  uid : String
  spec : VecodexSetSpec R

/-! ## Objects of the cluster -/

structure Container (R : Type) where
  name : String
  image : String
  command : List String
  resources : R
  deriving DecidableEq

structure PodTemplate (R : Type) where
  labels : List (String × String)
  containers : List (Container R)
  deriving DecidableEq

structure DeploymentSpec (R : Type) where
  replicas : Option Int
  matchLabels : List (String × String)
  template : PodTemplate R
  deriving DecidableEq

structure Deployment (R Meta : Type) where
  metadata : Meta
  spec : DeploymentSpec R

inductive PathType
  | exact
  | byPrefix
  | implementationSpecific
  deriving DecidableEq

structure IngressPath where
  path : String
  pathType : PathType
  serviceName : String
  servicePort : Nat
  deriving DecidableEq

structure IngressRule where
  host : String
  paths : List IngressPath
  deriving DecidableEq

structure Ingress (Meta : Type) where
  metadata : Meta
  rules : List IngressRule

structure Cluster (R Meta : Type) where
  sets : NamespacedName → Option (VecodexSet R)
  deployments : NamespacedName → Option (Deployment R Meta)
  ingresses : NamespacedName → Option (Ingress Meta)

/-! ## The library -/

inductive ReconcileError
  /-- A call of the API failed. -/
  | api
  /-- Another controller owns the object. -/
  | alreadyOwned
  deriving DecidableEq, Repr

/-- The set as the owner of an object. -/
structure Owner where
  key : NamespacedName
  uid : String
  deriving DecidableEq

/-- `SetControllerReference`, and the metadata of an object that is new. -/
structure Ownership (Meta : Type) where
  blank : Meta
  setControllerReference : Owner → Meta → Except ReconcileError Meta
  again : ∀ owner m m', setControllerReference owner m = .ok m' →
    setControllerReference owner m' = .ok m'

/-! ## `reconcileDeployment` and `reconcileIngress` -/

def deploymentKey (key : NamespacedName) (name : String) : NamespacedName :=
  ⟨key.space, key.name ++ "-" ++ name⟩

def ingressKey (key : NamespacedName) : NamespacedName := ⟨key.space, key.name ++ "-ingress"⟩

/-- The spec of a Deployment, for the role of the name. The container gets no command. -/
def deploymentSpec (key : NamespacedName) (name : String) (spec : NodeSpec R) : DeploymentSpec R :=
  { replicas := spec.replicas
    matchLabels := [("app", key.name ++ "-" ++ name)]
    template :=
      { labels := [("app", key.name ++ "-" ++ name)]
        containers :=
          [{ name := name, image := spec.image, command := [], resources := spec.resources }] } }

def ingressRules (key : NamespacedName) (spec : IngressSpec) : List IngressRule :=
  [{ host := spec.host
     paths :=
      [{ path := "/"
         pathType := .byPrefix
         serviceName := key.name ++ "-coordinator"
         servicePort := 80 }] }]

def reconcileDeployment (lib : Ownership Meta) (key : NamespacedName) (vecodex : VecodexSet R)
    (fate : Fate ReconcileError) (name : String) (spec : NodeSpec R) (c : Cluster R Meta) :
    Except ReconcileError Unit × Cluster R Meta :=
  let blank : Deployment R Meta := ⟨lib.blank, ⟨none, [], ⟨[], []⟩⟩⟩
  let result := createOrUpdate fate c.deployments (deploymentKey key name) blank
    fun deployment => do
    let metadata ← lib.setControllerReference ⟨key, vecodex.uid⟩ deployment.metadata
    return ⟨metadata, deploymentSpec key name spec⟩
  (result.1, { c with deployments := result.2 })

def reconcileIngress (lib : Ownership Meta) (key : NamespacedName) (vecodex : VecodexSet R)
    (fate : Fate ReconcileError) (c : Cluster R Meta) :
    Except ReconcileError Unit × Cluster R Meta :=
  let blank : Ingress Meta := ⟨lib.blank, []⟩
  let result := createOrUpdate fate c.ingresses (ingressKey key) blank fun ingress => do
    let metadata ← lib.setControllerReference ⟨key, vecodex.uid⟩ ingress.metadata
    return ⟨metadata, ingressRules key vecodex.spec.ingress⟩
  (result.1, { c with ingresses := result.2 })

/-! ## `Reconcile` -/

/-- What becomes of the calls of the API during one `Reconcile`. -/
structure Fates where
  /-- The error of the first `Get`, other than that there is no such set. -/
  get : Option ReconcileError
  coordinator : Fate ReconcileError
  writer : Fate ReconcileError
  searcher : Fate ReconcileError
  ingress : Fate ReconcileError

def reconcile (lib : Ownership Meta) (key : NamespacedName) (fates : Fates) (c : Cluster R Meta) :
    Except ReconcileError Unit × Cluster R Meta :=
  match fates.get with
  | some e => (.error e, c)
  | none =>
    match c.sets key with
    | none => (.ok (), c)
    | some vecodex =>
      foldStop (fun c step => step c)
        [reconcileDeployment lib key vecodex fates.coordinator "coordinator"
            vecodex.spec.coordinator,
          reconcileDeployment lib key vecodex fates.writer "writer" vecodex.spec.writer,
          reconcileDeployment lib key vecodex fates.searcher "searcher" vecodex.spec.searcher,
          reconcileIngress lib key vecodex fates.ingress] c

/-! ## Runs -/

inductive OperatorEvent (R : Type)
  | reconcile (key : NamespacedName) (fates : Fates)
  /-- The spec of a set is edited. -/
  | edit (key : NamespacedName) (spec : VecodexSetSpec R)

def Cluster.exec (lib : Ownership Meta) (c : Cluster R Meta) :
    OperatorEvent R → Cluster R Meta
  | .reconcile key fates => (Vecodex.reconcile lib key fates c).2
  | .edit key spec =>
    { c with
      sets := Function.update c.sets key ((c.sets key).map fun vecodex =>
        { vecodex with spec := spec }) }

def Cluster.run (lib : Ownership Meta) (c : Cluster R Meta) (events : List (OperatorEvent R)) :
    Cluster R Meta :=
  events.foldl (Cluster.exec lib) c

end Vecodex
