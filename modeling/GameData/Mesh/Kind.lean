import GameData.Bytes.Word

/-!
The chunks of a mesh file.
-/
namespace GameData.Mesh

inductive Kind where
  | hsem | reih | manb | atta | xtvm | trop | xvtp | cftp | wolg | d3dr | ecaf | dner | xtrv | pmtl
  | hsmc | xtvc | ecfc | tamc | hpsc | hprm | txan | sems | xtvs | cafs | egde
  deriving DecidableEq

namespace Kind

def all : List Kind :=
  [.hsem, .reih, .manb, .atta, .xtvm, .trop, .xvtp, .cftp, .wolg, .d3dr, .ecaf, .dner, .xtrv, .pmtl,
   .hsmc, .xtvc, .ecfc, .tamc, .hpsc, .hprm, .txan, .sems, .xtvs, .cafs, .egde]

/-- The four letters that mark the chunk. -/
def mark : Kind → String
  | .hsem => "HSEM" | .reih => "REIH" | .manb => "MANB" | .atta => "ATTA" | .xtvm => "XTVM" | .trop => "TROP"
  | .xvtp => "XVTP" | .cftp => "CFTP" | .wolg => "WOLG" | .d3dr => "D3DR" | .ecaf => "ECAF" | .dner => "DNER"
  | .xtrv => "XTRV" | .pmtl => "PMTL" | .hsmc => "HSMC" | .xtvc => "XTVC" | .ecfc => "ECFC" | .tamc => "TAMC"
  | .hpsc => "HPSC" | .hprm => "HPRM" | .txan => "TXAN" | .sems => "SEMS" | .xtvs => "XTVS" | .cafs => "CAFS"
  | .egde => "EGDE"

def ofMark? (s : String) : Option Kind := all.find? fun k => k.mark == s

def ofFourcc? (b : Bytes) : Option Kind := all.find? fun k => Bytes.ofText k.mark == b

end Kind

end GameData.Mesh
