import Rapido.Manifest
import Rapido.Templates

-- Variables in the paths of a manifest.
namespace Rapido.Cut
open Text KvConf Templates

variable {conf : Map} {front acc text key literal : Str} {refs : List (Str × Str)}

end Rapido.Cut
