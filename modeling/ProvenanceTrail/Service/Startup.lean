import ProvenanceTrail.Search.Engine
import ProvenanceTrail.Service.Folder
/-!
# Starting the service

The service hosts bundles itself, under a name of its own, and searches over a federation. At startup
the environment says where the federation table and the folder of bundles are.
-/

namespace ProvenanceTrail

/-- A running service: its engine, and the bundles that it hosts itself. -/
structure Service where
  engine : Engine
  bundles : Services

/-- Why a service did not start. -/
inductive StartupError where
  | table (error : LoadError)
  | bundles (error : LoadError)
deriving DecidableEq, Repr

namespace Service

/-- The name under which a service hosts its own bundles. -/
def localName : String := "local"

/-- Hosts bundles under the service's own name. -/
def hostLocally (bundles : List HostedBundle) : Services :=
  bundles.foldl (fun s b => s.host localName b) .empty

/-- The verifier of a service with an empty cache. -/
def freshVerifier (registry : TokenRegistry) : Verifier :=
  ⟨registry, some (.empty VerdictCache.defaultCapacity)⟩

/-- Reads the federation table that the environment names; without a name it has no routes. -/
def loadTable (folder : Folder) (environment : List (String × String)) :
    Except StartupError FederationTable :=
  match Text.meaning? environment "FEDERATION_TABLE_PATH" with
  | none => .ok .empty
  | some path =>
    match Folder.text? folder path with
    | .error e => .error (.table e)
    | .ok text =>
      match FederationTable.ofText? text with
      | some table => .ok table
      | none => .error (.table (.malformed path))

/-- Reads the bundles that the environment names; without a name there are none. -/
def loadBundles (folder : Folder) (environment : List (String × String)) :
    Except StartupError (List HostedBundle) :=
  match Text.meaning? environment "BUNDLE_DIR" with
  | none => .ok []
  | some path => ((Folder.folder? folder path).bind Folder.loadBundles).mapError .bundles

/-- Starts a service as the environment says, with the checks for demonstrations. Paths start at a
folder. The table is read before the bundles. -/
def start (folder : Folder) (environment : List (String × String)) :
    Except StartupError Service :=
  match loadTable folder environment with
  | .error e => .error e
  | .ok table =>
    match loadBundles folder environment with
    | .error e => .error e
    | .ok bundles =>
      let federation : Federation :=
        ⟨.empty, table, .demo, SearchSettings.ofEnvironment environment⟩
      .ok ⟨⟨federation, freshVerifier ⟨[], true⟩, [], []⟩, hostLocally bundles⟩

end Service

end ProvenanceTrail
