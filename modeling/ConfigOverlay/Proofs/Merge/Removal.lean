import ConfigOverlay.Proofs.Merge.Runs
import ConfigOverlay.Proofs.Merge.Steps
import ConfigOverlay.Proofs.Merge.Sweep

set_option autoImplicit false

namespace ConfigOverlay

end ConfigOverlay
