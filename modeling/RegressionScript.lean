import RegressionScript.Model.Monomials
import RegressionScript.Model.Outline
import RegressionScript.Proofs.Defects
import RegressionScript.Proofs.Denotation
import RegressionScript.Proofs.Filling
import RegressionScript.Proofs.JsonModels
import RegressionScript.Proofs.Literals
import RegressionScript.Proofs.MonomialTables
import RegressionScript.Proofs.Powers
import RegressionScript.Proofs.Precision
import RegressionScript.Proofs.Reachable
import RegressionScript.Proofs.Renaming
import RegressionScript.Proofs.Searches
import RegressionScript.Proofs.Shapes
import RegressionScript.Report
import RegressionScript.Settings.Codec
