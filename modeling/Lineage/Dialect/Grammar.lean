import Lineage.Dialect.Basic
import Lineage.Error
import Lineage.Text.Lowercase

/-! # Grammars

The two grammars whose trees can be read, and the dialect of each. -/

namespace Lineage

inductive Grammar where
  /-- Tags in lower case, joined by underscores. -/
  | plsql
  /-- Tags in camel case. -/
  | pmd
deriving DecidableEq, Repr

/-- The dialect of the grammar with tags in lower case. -/
def Dialect.plsql : Dialect where
  rules :=
    [("create_package", .skip),
     ("create_package_body", .package),
     ("procedure_body", .routine),
     ("function_body", .routine),
     ("create_procedure_body", .routine),
     ("create_function_body", .routine),
     ("procedure_spec", .skip),
     ("function_spec", .skip),
     ("variable_declaration", .varDeclaration),
     ("cursor_declaration", .cursor),
     ("call_statement", .callStatement),
     ("function_call", .functionCall),
     ("id_expression", .identifier),
     ("cursor_name", .reference),
     ("return_statement", .returnStatement),
     ("assignment_statement", .assignment),
     ("open_statement", .assignment),
     ("fetch_statement", .fetch),
     ("if_statement", .conditional),
     ("elsif_part", .conditional),
     ("case_when_part", .conditional),
     ("loop_statement", .loop),
     ("select_statement", .select),
     ("query_block", .select),
     ("subquery_factoring_clause", .withClause),
     ("selected_list", .selectList),
     ("single_table_insert", .insert),
     ("tableview_name", .tableName),
     ("join_clause", .effect),
     ("where_clause", .effect),
     ("group_by_clause", .effect),
     ("having_clause", .effect),
     ("order_by_clause", .effect),
     ("subquery_operation_part", .setOperation)]
  vocabulary := {
    names := {
      holder := some "identifier"
      part := "id_expression"
      qualifiers := ["id_expression"]
      member := "id_expression" }
    declarations := {
      packageName := "package_name"
      routineHeader := ["identifier", "procedure_name", "function_name", "parameter", "type_spec"]
      parameterList := none
      parameter := "parameter"
      cursorParameter := "parameter_spec"
      defaultValue := "default_value_part"
      cursorQuery := "select_statement" }
    calls := {
      name := "routine_name"
      arguments := ["function_argument"]
      argument := "argument"
      argumentName := "identifier" }
    statements := {
      fetchCursor := "cursor_name"
      fetchTarget := "variable_name"
      loopHeader := some "cursor_loop_param" }
    queries := {
      withClause := "subquery_factoring_clause"
      withEntry := some "factoring_element"
      withName := "query_name"
      fromClause := "from_clause"
      intoClause := "into_clause"
      intoTarget := "variable_name"
      element := some "select_list_elements"
      columnAlias := "column_alias"
      tableReference := "dml_table_expression_clause"
      tableAlias := "table_alias"
      aliasHolder := "table_ref_aux" }
    inserts := {
      into := "insert_into_clause"
      table := "tableview_name"
      column := "column_name"
      values := "values_clause"
      valuesPath := ["expressions"]
      value := "expression"
      query := "select_statement" } }
  nodup := by decide

/-- The dialect of the grammar with tags in camel case. -/
def Dialect.pmd : Dialect where
  rules :=
    [("PackageSpecification", .skip),
     ("PackageBody", .package),
     ("ProgramUnit", .routine),
     ("VariableOrConstantDeclarator", .varDeclaration),
     ("CursorUnit", .cursor),
     ("FunctionCall", .functionCall),
     ("Column", .identifier),
     ("QualifiedName", .reference),
     ("PrimaryExpression", .fieldChain),
     ("PrimarySuffix", .fieldSuffix),
     ("ReturnStatement", .returnStatement),
     ("Assignment", .assignment),
     ("OpenStatement", .assignment),
     ("FetchStatement", .fetch),
     ("IfStatement", .conditional),
     ("ElsifClause", .conditional),
     ("CaseWhenClause", .conditional),
     ("ForStatement", .loop),
     ("CursorForLoopStatement", .loop),
     ("SelectStatement", .select),
     ("SelectIntoStatement", .select),
     ("QueryBlock", .select),
     ("Subquery", .select),
     ("WithClause", .withClause),
     ("SelectList", .selectList),
     ("SingleTableInsert", .insert),
     ("TableName", .tableName),
     ("JoinClause", .effect),
     ("WhereClause", .effect),
     ("GroupByClause", .effect),
     ("OrderByClause", .effect),
     ("SubqueryOperation", .setOperation)]
  vocabulary := {
    names := {
      holder := none
      part := "ID"
      qualifiers := ["TableName"]
      member := "QualifiedID" }
    declarations := {
      packageName := "ObjectNameDeclaration"
      routineHeader := ["MethodDeclarator"]
      parameterList := some "FormalParameters"
      parameter := "FormalParameter"
      cursorParameter := "FormalParameter"
      defaultValue := "VariableOrConstantInitializer"
      cursorQuery := "SelectStatement" }
    calls := {
      name := "FunctionName"
      arguments := ["Arguments", "ArgumentList"]
      argument := "Argument"
      argumentName := "UnqualifiedID" }
    statements := {
      fetchCursor := "QualifiedName"
      fetchTarget := "Column"
      loopHeader := none }
    queries := {
      withClause := "WithClause"
      withEntry := none
      withName := "Name"
      fromClause := "FromClause"
      intoClause := "IntoClause"
      intoTarget := "VariableName"
      element := none
      columnAlias := "ColumnAlias"
      tableReference := "TableReference"
      tableAlias := "TableAlias"
      aliasHolder := "TableReference" }
    inserts := {
      into := "InsertIntoClause"
      table := "TableName"
      column := "Column"
      values := "ValuesClause"
      valuesPath := []
      value := "Expression"
      query := "SelectStatement" } }
  nodup := by decide

namespace Grammar

/-- The grammar's word. -/
def name : Grammar → String
  | plsql => "plsql"
  | pmd => "pmd"

def dialect : Grammar → Dialect
  | plsql => .plsql
  | pmd => .pmd

/-- The grammar with exactly this word. -/
def ofWord? : String → Option Grammar
  | "plsql" => some plsql
  | "pmd" => some pmd
  | _ => none

/-- The grammar a user means by a name, in any mix of upper and lower case. -/
def ofName (text : String) : Except Error Grammar :=
  match String.ofList (Text.lower text.toList) with
  | "plsql" | "antlr" => .ok plsql
  | "pmd" => .ok pmd
  | _ => .error (.unknownDialect text)

end Grammar

end Lineage
