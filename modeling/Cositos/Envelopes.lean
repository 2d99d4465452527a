/-
The envelope of a document, as each port checks it (`load_document`).  Python looks at
the version and at the state before it reads a record; the ports run through whatever
stands at `state`, so that what they refuse is what they cannot run through or a record
they cannot load.
-/
import Cositos.Records

namespace Cositos

open Value

namespace Envelope

variable (decode : Decode)

/-! ### What the contract asks of a document -/

variable {decode} {doc records : Bindings}

namespace EnvelopeWitness

/-- `{"version_major": 2, "state": {"m": {"state": {}}}}`. -/
def current : Bindings :=
  [(.str "version_major", .int 2),
    (.str "state", .dict [(.str "m", .dict [(.str "state", .dict [])])])]

end EnvelopeWitness

end Envelope

end Cositos
