/-!
# The vocabulary of provenance bundles

URIs of the attributes and types by which bundles refer to one another.
-/

namespace ProvenanceTrail.Vocabulary

/-- The namespace of connectors and their attributes. -/
def cpm : String := "https://www.commonprovenancemodel.org/cpm-namespace-v1-0/"

/-- The attribute that says what a node is. -/
def type : String := "http://www.w3.org/ns/prov#type"

/-- The attribute for the start of an activity. -/
def startTime : String := "http://www.w3.org/ns/prov#startTime"

/-- The attribute for the version of a bundle. -/
def version : String := "http://purl.org/pav/version"

/-- The attribute by which a connector names the bundle it refers to. -/
def referencedBundleId : String := cpm ++ "referencedBundleId"

/-- The attribute that names the meta-bundle of a bundle. -/
def referencedMetaBundleId : String := cpm ++ "referencedMetaBundleId"

/-- The attribute for the digest of the bundle a connector refers to. -/
def referencedBundleHashValue : String := cpm ++ "referencedBundleHashValue"

/-- The attribute for the algorithm of that digest. -/
def hashAlg : String := cpm ++ "hashAlg"

/-- The attribute for the service that hosts the bundle a connector refers to. -/
def provenanceServiceUri : String := cpm ++ "provenanceServiceUri"

/-- The type of the main activity of a bundle. -/
def mainActivity : String := cpm ++ "mainActivity"

/-- The type of connectors to bundles further on. -/
def forwardConnector : String := cpm ++ "forwardConnector"

/-- The type of connectors to bundles further back. -/
def backwardConnector : String := cpm ++ "backwardConnector"

/-- The type of the nodes of a meta-bundle that stand for bundles. -/
def bundle : String := "http://www.w3.org/ns/prov#bundle"

end ProvenanceTrail.Vocabulary
