import Pullrun.Oci.Sample
import Pullrun.Service.Requests

/-!
# A daemon that can be evaluated

A daemon on the formats of `Oci/Sample.lean`, with a registry that has one image. The store never has
a signature, and `[1]` stands for an SBOM with one component under the license `L`. The digests under which the engine looks
for them are those of the real SHA-256.
-/

namespace Pullrun

namespace Sample

def oneFileHex : Str := oneFileD.asHex
def oneFileUpper : Str := oneFileHex.map Char.toUpper

/-- Where the signature of `a` and the SBOM of the image would be, by the two spellings. -/
def signatureD : Digest := .ofNat 0xdbda98fe55a8b0564c301c45de45963bbb6bdee1bc2e2fa8c9ed5a554c8365d9
def sbomD : Digest := .ofNat 0x0ea288dbc07c12cdea01ec1c81bda715ad15d06d8f974899d84c0c5d8cc9b58d
def sbomUpperD : Digest := .ofNat 0xccf6cb539d4c8e14e5a045b513b2c60fc253ace9afae22adfddc7df1c3d41cd2

def policyFormats : PolicyFormats where
  sha256 b :=
    if b = Text.ascii.utf8 "pullrun.cosign.sig.v1\na\n".toList then signatureD
    else if b = Text.ascii.utf8 ("pullrun.sbom.v1\n".toList ++ oneFileHex) then sbomD
    else if b = Text.ascii.utf8 ("pullrun.sbom.v1\n".toList ++ oneFileUpper) then sbomUpperD
    else formats.codec.sha256 b
  text := .ascii
  checkSignatureBlob _ := .error "invalid archive"
  checkSbomBlob b := if b = [1] then .ok ⟨[[['L']]], []⟩ else .error "invalid archive"
  verify _ _ _ := .error "signature error".toList

def runtime (engine : Option PolicyEngine) : RuntimeConfig where
  formats := formats
  policyFormats := policyFormats
  manifestJson := DagTar.jsonOf []
  policyEngine := engine
  registry req := if req.imageRef = ['a'] then .ok oneFile else .error "not found"

def signedOnly : PolicyEngine := ⟨{ requiredSignature := true }, []⟩

def noL : PolicyEngine := ⟨{ denyLicenses := [['L']] }, []⟩

def withSbom : MmapStore := noStore.putBlob sbomD [1]

end Sample

end Pullrun
