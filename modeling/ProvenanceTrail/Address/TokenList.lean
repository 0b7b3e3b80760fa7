import ProvenanceTrail.Address.Url
import ProvenanceTrail.Text.Word
/-!
# Addresses of token lists

A trusted party lists the tokens that it has issued for an originator under an address of its own. The
originator is one segment of that address, whatever characters it has.
-/

namespace ProvenanceTrail.TokenList

/-- An address without slashes at its end, with a scheme in front if it has none. -/
def withScheme (base : String) : String :=
  let base := String.ofList (base.toList.reverse.dropWhile (· == '/')).reverse
  if Text.startsWith "http://" base || Text.startsWith "https://" base then base
  else "http://" ++ base

/-- The address under which a trusted party lists the tokens of an originator. -/
def url? (trustedParty originator : String) : Option Url :=
  (Url.ofText? (withScheme trustedParty)).map fun u =>
    ["api", "v1", "organizations", originator, "tokens"].foldl Url.addSegment u.dropEmptyEnd

end ProvenanceTrail.TokenList
