import TinySolana.Types

/-!
# Program ids

The 32 bytes of the declared base58 strings.
-/

namespace TinySolana

/-- `11111111111111111111111111111111`. -/
def systemProgramId : Pubkey := ⟨List.replicate 32 0,Pubkey.zeros_size⟩

/-- `TokenkegQfeZyiNwAJbNbGKPFXCWuBvf9Ss623VQ5DA`. -/
def tokenProgramId : Pubkey := ⟨[6,221,246,225,215,101,161,147,
    217,203,225,70,206,235,121,172,
    28,180,133,237,95,91,55,145,
    58,140,245,133,126,255,0,169],rfl⟩

/-- `BPFLoaderUpgradeab1e111111111111111111111111`. -/
def bpfLoaderUpgradeableProgramId : Pubkey := ⟨[154,71,220,235,202,244,162,19,
    55,164,208,68,12,149,117,190,
    44,29,247,215,39,194,87,191,
    146,233,167,161,5,0,0,0],rfl⟩

end TinySolana
