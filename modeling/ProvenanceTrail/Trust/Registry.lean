import ProvenanceTrail.Graph.Token
import ProvenanceTrail.Hosting.Services
/-!
# Token registries

A trusted party keeps a list of the tokens that it has issued, by originator. A token counts only as
long as it is on that list.
-/

namespace ProvenanceTrail

/-- The tokens that were issued, in order; an unreachable registry answers no question. -/
structure TokenRegistry where
  issued : List Token
  reachable : Bool

namespace TokenRegistry

/-- The tokens that a trusted party has issued for an originator, in order. -/
def tokensOf (r : TokenRegistry) (trustedParty originator : String) :
    Except HostingError (List Token) :=
  if r.reachable then
    .ok (r.issued.filter fun t =>
      t.data.additionalData.trustedPartyUri == trustedParty && t.data.originatorId == originator)
  else .error (.unreachable trustedParty)

end TokenRegistry

end ProvenanceTrail
