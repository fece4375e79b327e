import Mpss.Micscif.Nm

namespace Mpss.Proofs.LossAnnounced

open Micscif.Nm List

end Mpss.Proofs.LossAnnounced
