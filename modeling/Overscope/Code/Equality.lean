-- Equality of values and code: floats compare as numbers, so that a NaN differs
-- from itself and the two zeros are equal, and environments by identity.
import Overscope.Code.Basic

namespace Overscope

mutual

def Expr.beq : Expr → Expr → Bool
  | .const v, .const w => v.beq w
  | .symbol m, .symbol n => m = n
  | .call c as, .call d bs => c = d && as.beq bs
  | .missing, .missing => true
  | _, _ => false
termination_by structural e => e

def Args.beq : Args → Args → Bool
  | .nil, .nil => true
  | .cons e es, .cons f fs => e.beq f && es.beq fs
  | _, _ => false
termination_by structural args => args

def Value.beq : Value → Value → Bool
  | .null, .null => true
  | .missing, .missing => true
  | .bool a, .bool b => a = b
  | .int m, .int n => m = n
  | .float x, .float y => x == y
  | .str s, .str t => s = t
  | .list k es, .list l fs => k = l && es.beq fs
  | .code e, .code f => e.beq f
  | .formula c as e k, .formula d bs f l => c = d && e = f && k = l && as.beq bs
  | .env e, .env f => e = f
  | .builtin p, .builtin q => p = q
  | .override t, .override u => t = u
  | .pronoun s m, .pronoun t n => m = n && s.beq t
  | _, _ => false
termination_by structural v => v

def Entries.beq : Entries → Entries → Bool
  | .nil, .nil => true
  | .cons m v es, .cons n w fs => m = n && v.beq w && es.beq fs
  | _, _ => false
termination_by structural entries => entries

def DataSource.beq : DataSource → DataSource → Bool
  | .list k es, .list l fs => k = l && es.beq fs
  | .env e, .env f => e = f
  | _, _ => false
termination_by structural source => source

end

instance : BEq Value := ⟨Value.beq⟩

instance : BEq Expr := ⟨Expr.beq⟩

end Overscope
